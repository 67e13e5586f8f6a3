/-
  Failures with their causes.
-/
namespace MagicNumbers

/-- What went wrong, seen from outside, and the causes below it, outermost first. -/
structure Failure where
  message : String
  causes : List String := []
  deriving DecidableEq, Repr

namespace Failure

/-- All messages, outermost first. -/
def chain (f : Failure) : List String := f.message :: f.causes

/-- The failure as the cause of another. -/
def under (f : Failure) (message : String) : Failure := ⟨message, f.chain⟩

/-- A text whose lines after the first are indented. -/
def indented (width : Nat) (s : String) : String :=
  ("\n" ++ String.ofList (List.replicate width ' ')).intercalate (s.splitOn "\n")

/-- A number at the right end of a field. -/
def rightAligned (width n : Nat) : String :=
  let digits := toString n
  String.ofList (List.replicate (width - digits.length) ' ') ++ digits

/-- A single cause is indented by four; several are numbered from zero. -/
def causeLines : List String → List String
  | [] => []
  | [cause] => ["", "Caused by:", "    " ++ indented 4 cause]
  | causes =>
    "" :: "Caused by:" ::
      causes.zipIdx.map fun (cause, i) => rightAligned 5 i ++ ": " ++ indented 7 cause

/-- The failure as it is shown to the user. -/
def report (f : Failure) : String :=
  "\n".intercalate (("Error: " ++ f.message) :: causeLines f.causes)

example : (Failure.mk "a" []).report = "Error: a" := by cbv
example : (Failure.mk "a" ["b"]).report = "Error: a\n\nCaused by:\n    b" := by cbv
example : (Failure.mk "a" ["b", "c"]).report =
    "Error: a\n\nCaused by:\n    0: b\n    1: c" := by cbv

end Failure

end MagicNumbers

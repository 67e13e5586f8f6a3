/-
  The keyword question, asked again and again about one statement.

  Within a statement the bound of the question mostly grows.  Each keyword then goes on from where
  its search paused, so that the statement is walked once.  A smaller bound is answered afresh, and
  nothing is remembered of it.
-/
import MagicNumbers.Context.Keyword

namespace MagicNumbers

/-- A statement and what is known about it: where it starts, the largest bound asked so far, and for
    each keyword how far its search has come. -/
structure Statement where
  start : Cursor
  reach : Nat
  searches : List (Bytes × Search)
  deriving DecidableEq, Repr

namespace Statement

/-- A statement of which nothing is known yet. -/
def fresh (keywords : List Bytes) (start : Cursor) : Statement :=
  ⟨start, start.offset, keywords.map fun word => (word, .paused start)⟩

/-- The keywords asked about. -/
def keywords (st : Statement) : List Bytes := st.searches.map (·.1)

/-- Goes on with the searches in turn, up to the first that fails or comes up empty.  A search that
    fails stays where it was. -/
def resume (bound : Nat) : List (Bytes × Search) → Except Unclosed Bool × List (Bytes × Search)
  | [] => (.ok true, [])
  | (word, .found) :: rest =>
    let (answer, rest) := resume bound rest
    (answer, (word, .found) :: rest)
  | (word, .paused c) :: rest =>
    match search word bound c with
    | .error e => (.error e, (word, .paused c) :: rest)
    | .ok (.paused c) => (.ok false, (word, .paused c) :: rest)
    | .ok .found =>
      let (answer, rest) := resume bound rest
      (answer, (word, .found) :: rest)

/-- Whether the statement holds all its keywords before `bound`, and what is known afterwards. -/
def ask (st : Statement) (bound : Nat) : Except Unclosed Bool × Statement :=
  if st.searches.isEmpty then (.ok false, st)
  else if bound < st.reach then (holdsAll st.keywords bound st.start, st)
  else
    let (answer, searches) := resume bound st.searches
    (answer, { st with reach := bound, searches })

/-- The answers to a row of questions about one statement.  Questions go on after an error. -/
def askAll (st : Statement) : List Nat → List (Except Unclosed Bool)
  | [] => []
  | bound :: bounds =>
    let (answer, st) := st.ask bound
    answer :: askAll st bounds

@[simp] theorem keywords_fresh (ws : List Bytes) (c : Cursor) : (fresh ws c).keywords = ws := by
  simp [fresh, keywords, Function.comp_def]

end Statement

end MagicNumbers

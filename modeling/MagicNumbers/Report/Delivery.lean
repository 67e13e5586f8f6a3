/-
  Bringing results back into order.

  Workers finish in any order, and each result carries its number.  A result waits until all before
  it have been handed on.

  * `Delivery.arrive` takes a result in and hands on what is due; `Delivery.arriveAll` does so for a
    whole sequence of arrivals.
-/
namespace MagicNumbers

/-- The number of the next result to hand on, and the results that wait, by number. -/
structure Delivery (α : Type) where
  next : Nat := 0
  waiting : List (Nat × α) := []

namespace Delivery

variable {α : Type}

/-- The results that wait, without that of one number. -/
def without (n : Nat) (waiting : List (Nat × α)) : List (Nat × α) :=
  waiting.filter fun entry => entry.1 != n

theorem length_without_lt {n : Nat} {waiting : List (Nat × α)} {a : α}
    (h : waiting.lookup n = some a) : (without n waiting).length < waiting.length := by
  induction waiting with
  | nil => simp at h
  | cons entry rest ih =>
    obtain ⟨m, b⟩ := entry
    by_cases hm : m = n
    · subst hm
      have := List.length_filter_le (fun entry : Nat × α => entry.1 != m) rest
      simp [without]
      omega
    · have hne : (n == m) = false := by simp; omega
      rw [List.lookup_cons, hne] at h
      have := ih h
      simp [without, hm] at this ⊢
      omega

/-- Hands on the results that are due, in order. -/
def drain (d : Delivery α) : List α × Delivery α :=
  match _h : d.waiting.lookup d.next with
  | none => ([], d)
  | some a =>
    let (due, d) := drain ⟨d.next + 1, without d.next d.waiting⟩
    (a :: due, d)
termination_by d.waiting.length
decreasing_by exact length_without_lt _h

/-- Takes in the result of number `n`, in place of one that waits under that number, and hands on what
    is due. -/
def arrive (d : Delivery α) (n : Nat) (a : α) : List α × Delivery α :=
  drain { d with waiting := (n, a) :: without n d.waiting }

/-- Takes in results in turn. -/
def arriveAll (d : Delivery α) : List (Nat × α) → List α × Delivery α
  | [] => ([], d)
  | (n, a) :: rest =>
    let (due, d) := d.arrive n a
    let (later, d) := arriveAll d rest
    (due ++ later, d)

end Delivery

end MagicNumbers

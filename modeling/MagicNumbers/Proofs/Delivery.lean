/-
  Reports in their order, whatever the order they come in.

  Workers send numbered reports, each when it is ready; the channel hands them to the writer one after
  another; and the writer keeps those that are not due yet.  What is sent, received and written in turn
  is left to chance.  Through all of it no report is lost and none is doubled, and this alone settles
  what has been written when nothing more can be done.

  * `Exchange` — the workers, the channel and the writer; `Exchange.Step` — what may happen next.
  * `Exchange.Keeps` — the invariant: the reports on their way and those handed on are those sent.
  * `Exchange.Keeps.step`, `.steps` — a step keeps it, and so does every schedule.
  * `Exchange.steps_arriveAll` — taking in the reports in turn is one such schedule.
  * `receive_in_order` — the reports are written as by one worker alone, or up to the first that never
    came.
-/
import Mathlib.Data.List.Nodup
import Mathlib.Data.List.Perm.Subperm
import Mathlib.Logic.Relation
import MagicNumbers.Job

open scoped List

namespace MagicNumbers

/-! ## Reports that wait -/

section

variable {α : Type} {n : Nat} {a : α} {waiting : List (Nat × α)}

/-- What does not wait need not be taken out. -/
theorem Delivery.without_eq_self (h : n ∉ waiting.map Prod.fst) : without n waiting = waiting := by
  rw [without, List.filter_eq_self]
  intro entry hentry
  exact bne_iff_ne.2 fun heq => h (heq ▸ List.mem_map_of_mem hentry)

/-- What waits is taken out, and nothing else. -/
theorem Delivery.perm_without (hkeys : (waiting.map Prod.fst).Nodup)
    (h : waiting.lookup n = some a) : waiting.Perm ((n, a) :: without n waiting) := by
  obtain ⟨l, r, rfl, -⟩ := List.lookup_eq_some_iff.1 h
  rw [List.map_append, List.map_cons] at hkeys
  obtain ⟨hn, -⟩ := List.nodup_cons.1 (List.perm_middle.nodup_iff.1 hkeys)
  rw [← List.map_append] at hn
  have hrest : without n (l ++ (n, a) :: r) = l ++ r :=
    calc without n (l ++ (n, a) :: r)
      _ = without n (l ++ r) := by simp [without]
      _ = l ++ r := without_eq_self hn
  rw [hrest]
  exact List.perm_middle

end

/-! ## Numbered reports -/

section

variable {α : Type}

/-- Some results with their numbers. -/
def numbered (xs : List α) : List (Nat × α) := xs.zipIdx.map fun (a, n) => (n, a)

theorem mem_numbered_iff {xs : List α} {n : Nat} {a : α} : (n, a) ∈ numbered xs ↔ xs[n]? = some a := by
  rw [← List.mk_mem_zipIdx_iff_getElem?, numbered, List.mem_map]
  constructor
  · rintro ⟨⟨a', n'⟩, h, ⟨⟩⟩
    exact h
  · intro h
    exact ⟨(a, n), h, rfl⟩

theorem numbered_concat (xs : List α) (a : α) :
    numbered (xs ++ [a]) = numbered xs ++ [(xs.length, a)] := by
  rw [numbered, List.zipIdx_append, List.map_append, ← numbered, Nat.zero_add]
  rfl

/-- No two numbered results have the same number. -/
theorem nodup_map_fst_numbered (xs : List α) : ((numbered xs).map Prod.fst).Nodup := by
  have h : (numbered xs).map Prod.fst = xs.zipIdx.map Prod.snd := List.map_map
  rw [h, List.zipIdx_map_snd]
  exact List.nodup_range'

theorem nodup_numbered (xs : List α) : (numbered xs).Nodup :=
  (nodup_map_fst_numbered xs).of_map _

/-- Results with the numbers of others, in their order, are the first of these. -/
theorem prefix_of_numbered_subset {xs ys : List α} (h : numbered xs ⊆ numbered ys) : xs <+: ys := by
  rw [List.prefix_iff_getElem?]
  intro i hi
  exact mem_numbered_iff.1 (h (mem_numbered_iff.2 (List.getElem?_eq_getElem hi)))

/-- The numbers of different ones among some numbered results differ. -/
theorem nodup_map_fst_of_subset {xs : List α} {sent : List (Nat × α)} (hnodup : sent.Nodup)
    (hsent : sent ⊆ numbered xs) : (sent.map Prod.fst).Nodup := by
  apply hnodup.map_on
  rintro ⟨n, a⟩ ha ⟨m, b⟩ hb rfl
  have hn := mem_numbered_iff.1 (hsent ha)
  rw [mem_numbered_iff.1 (hsent hb)] at hn
  cases hn
  rfl

end

/-! ## Workers, channel and writer -/

/-- The results that the workers have yet to send, those in the channel, and the writer: what waits
    there, and what it has handed on. -/
structure Exchange (α : Type) where
  unsent : List (Nat × α)
  channel : List (Nat × α) := []
  delivery : Delivery α := {}
  handed : List α := []

namespace Exchange

variable {α : Type} {sent : List (Nat × α)} {x y : Exchange α}

/-- What may happen next. -/
inductive Step : Exchange α → Exchange α → Prop
  /-- Any result that has not been sent may be sent.  A bound on the channel would only rule out
      schedules. -/
  | send {unsent rest channel : List (Nat × α)} {entry : Nat × α} {d : Delivery α} {handed : List α}
      (h : unsent.Perm (entry :: rest)) :
      Step ⟨unsent, channel, d, handed⟩ ⟨rest, channel ++ [entry], d, handed⟩
  /-- The writer takes in the next result once none that waits is due. -/
  | receive {unsent channel : List (Nat × α)} {n : Nat} {a : α} {d : Delivery α} {handed : List α}
      (h : d.waiting.lookup d.next = none) :
      Step ⟨unsent, (n, a) :: channel, d, handed⟩
        ⟨unsent, channel, { d with waiting := (n, a) :: Delivery.without n d.waiting }, handed⟩
  /-- A result that is due is handed on. -/
  | handOn {unsent channel : List (Nat × α)} {a : α} {d : Delivery α} {handed : List α}
      (h : d.waiting.lookup d.next = some a) :
      Step ⟨unsent, channel, d, handed⟩
        ⟨unsent, channel, ⟨d.next + 1, Delivery.without d.next d.waiting⟩, handed ++ [a]⟩

/-- Nothing is left to be done. -/
structure Over (x : Exchange α) : Prop where
  unsent : x.unsent = []
  channel : x.channel = []
  due : x.delivery.waiting.lookup x.delivery.next = none

/-- Where nothing can happen, nothing is left to be done. -/
theorem over_of_stuck (h : ∀ y, ¬ Step x y) : x.Over := by
  obtain ⟨unsent, channel, d, handed⟩ := x
  have hdue : d.waiting.lookup d.next = none := by
    cases hd : d.waiting.lookup d.next with
    | none => rfl
    | some a => exact absurd (.handOn hd) (h _)
  refine ⟨?_, ?_, hdue⟩
  · cases unsent with
    | nil => rfl
    | cons entry rest => exact absurd (.send (.refl _)) (h _)
  · cases channel with
    | nil => rfl
    | cons entry rest => exact absurd (.receive hdue) (h _)

/-- How much is left to be done: each result is sent, taken in and handed on. -/
def left (x : Exchange α) : Nat :=
  3 * x.unsent.length + 2 * x.channel.length + x.delivery.waiting.length

theorem Step.left_lt (h : Step x y) : y.left < x.left := by
  cases h with
  | send hperm =>
    have := hperm.length_eq
    simp only [left, List.length_append, List.length_cons, List.length_nil] at this ⊢
    omega
  | @receive _ _ n _ d =>
    have : (Delivery.without n d.waiting).length ≤ d.waiting.length := List.length_filter_le _ _
    simp only [left, List.length_cons]
    omega
  | handOn hdue =>
    have := Delivery.length_without_lt hdue
    simp only [left]
    omega

/-- **No schedule goes on for ever.** -/
theorem wellFounded_step : WellFounded fun x y : Exchange α => Step y x :=
  Subrelation.wf (fun h => Step.left_lt h) (measure left).wf

/-! ## Nothing is lost and nothing doubled -/

/-- The results on their way and those handed on are those that are sent; and those handed on are
    numbered from zero. -/
structure Keeps (sent : List (Nat × α)) (x : Exchange α) : Prop where
  whole : (x.unsent ++ x.channel ++ x.delivery.waiting ++ numbered x.handed).Perm sent
  next : x.delivery.next = x.handed.length

/-- No two results on their way have the same number. -/
theorem Keeps.nodup (h : x.Keeps sent) (hkeys : (sent.map Prod.fst).Nodup) :
    (x.delivery.waiting.map Prod.fst).Nodup := by
  have hall := (h.whole.map Prod.fst).nodup_iff.2 hkeys
  rw [List.map_append, List.map_append] at hall
  exact hall.of_append_left.of_append_right

/-- **Whatever happens, nothing is lost and nothing doubled.** -/
theorem Keeps.step (h : x.Keeps sent) (hkeys : (sent.map Prod.fst).Nodup) (hs : Step x y) :
    y.Keeps sent := by
  have hall := h.whole
  have hnext := h.next
  have hnodup := h.nodup hkeys
  cases hs with
  | @send unsent rest channel entry d handed hperm =>
    refine ⟨.trans ?_ hall, hnext⟩
    calc rest ++ (channel ++ [entry]) ++ d.waiting ++ numbered handed
      _ = rest ++ channel ++ entry :: (d.waiting ++ numbered handed) := by simp
      _ ~ entry :: (rest ++ channel ++ (d.waiting ++ numbered handed)) := List.perm_middle
      _ = entry :: rest ++ (channel ++ d.waiting ++ numbered handed) := by simp
      _ ~ unsent ++ (channel ++ d.waiting ++ numbered handed) := hperm.symm.append_right _
      _ = unsent ++ channel ++ d.waiting ++ numbered handed := by simp
  | @receive unsent channel n a d handed =>
    have hfront : (n, a) :: (unsent ++ channel ++ d.waiting ++ numbered handed) ~ sent := by
      refine .trans ?_ hall
      calc (n, a) :: (unsent ++ channel ++ d.waiting ++ numbered handed)
        _ = (n, a) :: (unsent ++ (channel ++ d.waiting ++ numbered handed)) := by simp
        _ ~ unsent ++ (n, a) :: (channel ++ d.waiting ++ numbered handed) := List.perm_middle.symm
        _ = unsent ++ (n, a) :: channel ++ d.waiting ++ numbered handed := by simp
    -- the result that comes does not wait yet, so none is replaced
    have hn : n ∉ d.waiting.map Prod.fst := by
      have hcons := (hfront.map Prod.fst).nodup_iff.2 hkeys
      rw [List.map_cons, List.nodup_cons] at hcons
      intro hmem
      apply hcons.1
      simp only [List.map_append, List.mem_append]
      exact .inl (.inr hmem)
    refine ⟨.trans ?_ hfront, hnext⟩
    show unsent ++ channel ++ (n, a) :: Delivery.without n d.waiting ++ numbered handed ~ _
    rw [Delivery.without_eq_self hn]
    calc unsent ++ channel ++ (n, a) :: d.waiting ++ numbered handed
      _ = unsent ++ channel ++ (n, a) :: (d.waiting ++ numbered handed) := by simp
      _ ~ (n, a) :: (unsent ++ channel ++ (d.waiting ++ numbered handed)) := List.perm_middle
      _ = (n, a) :: (unsent ++ channel ++ d.waiting ++ numbered handed) := by simp
  | @handOn unsent channel a d handed hdue =>
    constructor
    · refine .trans ?_ hall
      show unsent ++ channel ++ Delivery.without d.next d.waiting ++ numbered (handed ++ [a]) ~ _
      rw [numbered_concat, ← show d.next = handed.length from hnext]
      calc unsent ++ channel ++ Delivery.without d.next d.waiting ++
          (numbered handed ++ [(d.next, a)])
        _ = unsent ++ channel ++ (Delivery.without d.next d.waiting ++ numbered handed) ++
            [(d.next, a)] := by simp
        _ ~ (d.next, a) ::
            (unsent ++ channel ++ (Delivery.without d.next d.waiting ++ numbered handed)) :=
          List.perm_append_singleton _ _
        _ ~ unsent ++ channel ++
            ((d.next, a) :: Delivery.without d.next d.waiting ++ numbered handed) :=
          List.perm_middle.symm
        _ ~ unsent ++ channel ++ (d.waiting ++ numbered handed) :=
          ((Delivery.perm_without hnodup hdue).symm.append_right _).append_left _
        _ = unsent ++ channel ++ d.waiting ++ numbered handed := by simp
    · show d.next + 1 = (handed ++ [a]).length
      rw [List.length_append, ← show d.next = handed.length from hnext]
      rfl

/-- **So it is with every schedule.** -/
theorem Keeps.steps (h : x.Keeps sent) (hkeys : (sent.map Prod.fst).Nodup)
    (hs : Relation.ReflTransGen Step x y) : y.Keeps sent := by
  induction hs with
  | refl => exact h
  | tail _ hstep ih => exact ih.step hkeys hstep

theorem keeps_unsent (sent : List (Nat × α)) : Keeps sent ⟨sent, [], {}, []⟩ :=
  ⟨by simp [numbered], rfl⟩

theorem keeps_channel (sent : List (Nat × α)) : Keeps sent ⟨[], sent, {}, []⟩ :=
  ⟨by simp [numbered], rfl⟩

/-! ## The end -/

/-- `n` is the first number that none of the results has. -/
structure FirstMissing (sent : List (Nat × α)) (n : Nat) : Prop where
  mem : ∀ k < n, ∃ a, (k, a) ∈ sent
  notMem : ∀ a, (n, a) ∉ sent

theorem FirstMissing.unique {m n : Nat} (hm : FirstMissing sent m) (hn : FirstMissing sent n) :
    m = n := by
  rcases Nat.lt_trichotomy m n with h | h | h
  · obtain ⟨a, ha⟩ := hn.mem m h
    exact absurd ha (hm.notMem a)
  · exact h
  · obtain ⟨a, ha⟩ := hm.mem n h
    exact absurd ha (hn.notMem a)

/-- **When nothing is left to be done, the results before the first that is missing have been handed on**,
    and the others that were sent wait. -/
theorem Keeps.over {xs : List α} (h : x.Keeps sent) (hsent : sent ⊆ numbered xs) (hover : x.Over) :
    FirstMissing sent x.delivery.next ∧ x.handed = xs.take x.delivery.next ∧
      (x.delivery.waiting ++ numbered x.handed).Perm sent := by
  have hall := h.whole
  rw [hover.unsent, hover.channel, List.nil_append, List.nil_append] at hall
  have hhanded : numbered x.handed ⊆ sent :=
    List.Subset.trans (List.subset_append_right _ _) hall.subset
  refine ⟨⟨?_, ?_⟩, ?_, hall⟩
  · intro k hk
    rw [h.next] at hk
    exact ⟨x.handed[k], hhanded (mem_numbered_iff.2 (List.getElem?_eq_getElem hk))⟩
  · intro a ha
    rcases List.mem_append.1 (hall.symm.subset ha) with hwait | hdone
    · have hne := List.lookup_eq_none_iff.1 hover.due _ hwait
      exact absurd rfl (bne_iff_ne.1 hne)
    · have hlt := (List.getElem?_eq_some_iff.1 (mem_numbered_iff.1 hdone)).1
      rw [h.next] at hlt
      exact Nat.lt_irrefl _ hlt
  · rw [h.next]
    exact List.prefix_iff_eq_take.1 (prefix_of_numbered_subset (List.Subset.trans hhanded hsent))

/-! ## Taking in the results in turn -/

/-- Handing on what is due is a schedule, after which nothing is due. -/
theorem steps_drain (unsent channel : List (Nat × α)) (d : Delivery α) (handed : List α) :
    Relation.ReflTransGen Step ⟨unsent, channel, d, handed⟩
      ⟨unsent, channel, d.drain.2, handed ++ d.drain.1⟩ ∧
    d.drain.2.waiting.lookup d.drain.2.next = none := by
  fun_induction Delivery.drain d generalizing handed with
  | case1 d hnone =>
    rw [List.append_nil]
    exact ⟨.refl, hnone⟩
  | case2 d a hdue due d' hdrain ih =>
    rw [hdrain] at ih
    obtain ⟨hsteps, hnone⟩ := ih (handed ++ [a])
    rw [List.append_assoc] at hsteps
    exact ⟨.head (.handOn hdue) hsteps, hnone⟩

/-- Taking in the results in turn is a schedule, at the end of which nothing is due. -/
theorem steps_arriveAll (unsent channel : List (Nat × α)) {d : Delivery α}
    (hnone : d.waiting.lookup d.next = none) (handed : List α) :
    Relation.ReflTransGen Step ⟨unsent, channel, d, handed⟩
      ⟨unsent, [], (d.arriveAll channel).2, handed ++ (d.arriveAll channel).1⟩ ∧
    (d.arriveAll channel).2.waiting.lookup (d.arriveAll channel).2.next = none := by
  induction channel generalizing d handed with
  | nil =>
    rw [Delivery.arriveAll, List.append_nil]
    exact ⟨.refl, hnone⟩
  | cons entry channel ih =>
    obtain ⟨n, a⟩ := entry
    obtain ⟨hdrain, hdue⟩ := steps_drain unsent channel
      { d with waiting := (n, a) :: Delivery.without n d.waiting } handed
    obtain ⟨hrest, hend⟩ := ih hdue (handed ++ (d.arrive n a).1)
    rw [List.append_assoc] at hrest
    exact ⟨.head (.receive hnone) (hdrain.trans hrest), hend⟩

/-- So the results that are taken in in turn are handed on up to the first that is missing. -/
theorem arriveAll_spec {xs : List α} (hnodup : sent.Nodup) (hsent : sent ⊆ numbered xs) :
    FirstMissing sent (Delivery.arriveAll {} sent).2.next ∧
    (Delivery.arriveAll {} sent).1 = xs.take (Delivery.arriveAll {} sent).2.next ∧
    ((Delivery.arriveAll {} sent).2.waiting ++ numbered (Delivery.arriveAll {} sent).1).Perm sent := by
  obtain ⟨hsteps, hdue⟩ := steps_arriveAll [] sent (d := {}) rfl []
  rw [List.nil_append] at hsteps
  exact ((keeps_channel sent).steps (nodup_map_fst_of_subset hnodup hsent) hsteps).over hsent
    ⟨rfl, rfl, hdue⟩

/-- If all results are sent, none is missing. -/
theorem firstMissing_of_perm {xs : List α} (h : sent.Perm (numbered xs)) :
    FirstMissing sent xs.length := by
  constructor
  · intro k hk
    exact ⟨xs[k], h.symm.subset (mem_numbered_iff.2 (List.getElem?_eq_getElem hk))⟩
  · intro a ha
    have hlt := (List.getElem?_eq_some_iff.1 (mem_numbered_iff.1 (h.subset ha))).1
    exact Nat.lt_irrefl _ hlt

/-- If not all are sent, one is missing. -/
theorem FirstMissing.lt_length {xs : List α} {n : Nat} (h : FirstMissing sent n)
    (hsent : sent ⊆ numbered xs) (hmissing : ¬ numbered xs ⊆ sent) : n < xs.length := by
  refine Nat.lt_of_not_le fun hle => hmissing ?_
  rintro ⟨k, a⟩ ha
  have ha := mem_numbered_iff.1 ha
  have hk := (List.getElem?_eq_some_iff.1 ha).1
  obtain ⟨b, hb⟩ := h.mem k (Nat.lt_of_lt_of_le hk hle)
  have hb' := mem_numbered_iff.1 (hsent hb)
  rw [ha] at hb'
  cases hb'
  exact hb

end Exchange

/-! ## Workers that share the files -/

/-- What is shared out by number is all there, each once. -/
theorem flatMap_filter_perm {α : Type} (f : α → Nat) (l : List α) (n : Nat) :
    (List.range n).flatMap (fun k => l.filter fun a => f a == k) ~ l.filter fun a => f a < n := by
  induction n with
  | zero => simp
  | succ n ih =>
    rw [List.range_succ, List.flatMap_append, List.flatMap_singleton]
    refine (ih.append_right _).trans ?_
    have hsplit := List.filter_append_perm (fun a => decide (f a < n)) (l.filter fun a => f a < n + 1)
    rw [List.filter_filter, List.filter_filter] at hsplit
    refine .trans (.of_eq ?_) hsplit
    congr 1
    · apply List.filter_congr
      intro a _
      rw [Bool.eq_iff_iff, Bool.and_eq_true]
      simp only [decide_eq_true_eq]
      omega
    · apply List.filter_congr
      intro a _
      rw [Bool.eq_iff_iff, Bool.and_eq_true, Bool.not_eq_true']
      simp only [beq_iff_eq, decide_eq_true_eq, decide_eq_false_iff_not]
      omega

/-- **However many workers share the files, all their reports come, each once.** -/
theorem Job.arrivals_perm (job : Job) (w : Workspace) {workers : Nat} (hworkers : 0 < workers)
    (files : List Path) :
    job.arrivals w workers files ~ numbered (files.map (job.report w)) := by
  have hall : numbered (files.map (job.report w)) =
      (numbered files).map fun file => (file.1, job.report w file.2) := by
    rw [numbered, numbered, List.zipIdx_map, List.map_map, List.map_map]
    rfl
  have htasks : job.arrivals w workers files =
      ((List.range workers).flatMap fun k => share workers k (numbered files)).map
        fun file => (file.1, job.report w file.2) := by
    rw [arrivals, List.flatMap_map, List.map_flatMap]
    rfl
  rw [hall, htasks]
  apply List.Perm.map
  refine (flatMap_filter_perm (fun file : Nat × Path => file.1 % workers) _ workers).trans (.of_eq ?_)
  rw [List.filter_eq_self]
  intro file _
  exact decide_eq_true (Nat.mod_lt _ hworkers)

/-! ## The writer -/

/-- All reports that are sent are written in their order. -/
theorem Sink.receive_of_perm (s : Sink) {reports : List FileReport}
    {arrivals : List (Nat × FileReport)} (h : arrivals ~ numbered reports) :
    Delivery.arriveAll {} arrivals = (reports, ⟨reports.length, []⟩) ∧
    s.receive reports.length arrivals = (s.writeAll reports, none) := by
  obtain ⟨hfirst, hhanded, hwhole⟩ :=
    Exchange.arriveAll_spec (h.symm.nodup (nodup_numbered reports)) h.subset
  have hnext := hfirst.unique (Exchange.firstMissing_of_perm h)
  rw [hnext, List.take_length] at hhanded
  -- what waits is what has not been handed on, and all has been
  have hwaiting : (Delivery.arriveAll {} arrivals).2.waiting = [] := by
    have hlen := (hwhole.trans h).length_eq
    rw [hhanded, List.length_append] at hlen
    exact List.length_eq_zero_iff.1 (by omega)
  have heq : Delivery.arriveAll {} arrivals = (reports, ⟨reports.length, []⟩) := by
    rcases hr : Delivery.arriveAll {} arrivals with ⟨due, next, waiting⟩
    rw [hr] at hhanded hnext hwaiting
    obtain rfl : due = reports := hhanded
    obtain rfl : next = due.length := hnext
    obtain rfl : waiting = [] := hwaiting
    rfl
  refine ⟨heq, ?_⟩
  rw [Sink.receive, heq]
  exact congrArg (Prod.mk _) (if_pos rfl)

/-- If some reports do not come, those before the first of them are written, and the run fails. -/
theorem Sink.receive_of_missing (s : Sink) {reports : List FileReport}
    {arrivals : List (Nat × FileReport)} (hnodup : arrivals.Nodup)
    (hsent : arrivals ⊆ numbered reports) (hmissing : ¬ numbered reports ⊆ arrivals) :
    ∃ n < reports.length, Exchange.FirstMissing arrivals n ∧
      (Delivery.arriveAll {} arrivals).1 = reports.take n ∧
      s.receive reports.length arrivals =
        (s.writeAll (reports.take n), some (endedEarly n reports.length)) := by
  obtain ⟨hfirst, hhanded, -⟩ := Exchange.arriveAll_spec hnodup hsent
  have hlt := hfirst.lt_length hsent hmissing
  refine ⟨_, hlt, hfirst, hhanded, ?_⟩
  rw [← hhanded, Sink.receive]
  exact congrArg (Prod.mk _) (if_neg (Nat.ne_of_lt hlt))

/-- **Any number of workers write what one alone writes.** -/
theorem Job.writeReports_eq (job : Job) (w : Workspace) (threads : Option Nat) (files : List Path)
    (s : Sink) :
    job.writeReports w threads files s = (s.writeAll (files.map (job.report w)), none) := by
  rw [writeReports]
  split
  · next h =>
    have hworkers : 0 < min (threads.getD defaultWorkers) files.length := by omega
    have hreceive := (s.receive_of_perm (job.arrivals_perm w hworkers files)).2
    rwa [List.length_map] at hreceive
  · rfl

/-- **Workers that share the files write what one worker writes.**  In whatever order the reports on
    some files come, they are handed on in the order of the files, each once, and none is left to wait;
    so what is written and its tally are those of the plain loop.  If the channel closes before all
    have come, the reports before the first that is missing have been written, and the run fails.
    However the sending, the taking in and the writing are interleaved, it comes to an end, and the end
    is the same. -/
theorem receive_in_order (job : Job) (w : Workspace) (files : List Path) (s : Sink) :
    let reports := files.map (job.report w)
    (∀ arrivals, arrivals ~ numbered reports →
      Delivery.arriveAll {} arrivals = (reports, ⟨files.length, []⟩) ∧
      s.receive files.length arrivals = (s.writeAll reports, none)) ∧
    (∀ arrivals, arrivals.Nodup → arrivals ⊆ numbered reports → ¬ numbered reports ⊆ arrivals →
      ∃ n < files.length, Exchange.FirstMissing arrivals n ∧
        (Delivery.arriveAll {} arrivals).1 = reports.take n ∧
        s.receive files.length arrivals =
          (s.writeAll (reports.take n), some (Sink.endedEarly n files.length))) ∧
    WellFounded (fun x y : Exchange FileReport => Exchange.Step y x) ∧
    (∀ sent x, sent.Nodup → sent ⊆ numbered reports →
      Relation.ReflTransGen Exchange.Step ⟨sent, [], {}, []⟩ x → (∀ y, ¬ Exchange.Step x y) →
      x.unsent = [] ∧ x.channel = [] ∧
      x.handed = (Delivery.arriveAll {} sent).1 ∧
      x.delivery.next = (Delivery.arriveAll {} sent).2.next ∧
      x.delivery.waiting ~ (Delivery.arriveAll {} sent).2.waiting) ∧
    ∀ threads, job.writeReports w threads files s = (s.writeAll reports, none) := by
  intro reports
  have hlen : reports.length = files.length := List.length_map _
  rw [← hlen]
  refine ⟨fun arrivals => s.receive_of_perm, fun arrivals => s.receive_of_missing,
    Exchange.wellFounded_step, ?_, fun threads => job.writeReports_eq w threads files s⟩
  intro sent x hnodup hsent hsteps hstuck
  have hover := Exchange.over_of_stuck hstuck
  have hkeeps := (Exchange.keeps_unsent sent).steps
    (nodup_map_fst_of_subset hnodup hsent) hsteps
  obtain ⟨hfirst, hhanded, hwhole⟩ := hkeeps.over hsent hover
  obtain ⟨hfirst', hhanded', hwhole'⟩ := Exchange.arriveAll_spec hnodup hsent
  have hnext := hfirst.unique hfirst'
  have hsame : x.handed = (Delivery.arriveAll {} sent).1 := by rw [hhanded, hhanded', hnext]
  refine ⟨hover.unsent, hover.channel, hsame, hnext, ?_⟩
  rw [hsame] at hwhole
  exact (List.perm_append_right_iff _).1 (hwhole.trans hwhole'.symm)

/-- Three reports that come last first, and two of them without the one between. -/
theorem receive_in_order_three :
    let w := (({} : Workspace).addFile [Bytes.ofString "a.java"] (Bytes.ofString "2")).addFile
      [Bytes.ofString "b.java"] (Bytes.ofString "\"")
    let job : Job := ⟨{}, ["java"], none⟩
    let a := job.report w (Bytes.ofString "a.java")
    let b := job.report w (Bytes.ofString "b.java")
    let c := job.report w (Bytes.ofString "c.java")
    let s := Sink.start .text
    s.receive 3 [(2, c), (1, b), (0, a)] = (s.writeAll [a, b, c], none) ∧
    s.receive 3 [(2, c), (0, a)] = (s.writeAll [a], some (Sink.endedEarly 1 3)) ∧
    (s.receive 3 [(2, c), (1, b), (0, a)]).1.finish =
      ("a.java has 1 magic numbers:\n\t@ Line 1: 2\n" ++
        "b.java not scanned: unterminated string literal starting at line 1 (offset 0)\n" ++
        "c.java not scanned: No such file or directory (os error 2)\n",
        { scanned := 1, failed := 2, findings := 1 }) ∧
    (s.receive 3 [(2, c), (0, a)]).1.finish =
      ("a.java has 1 magic numbers:\n\t@ Line 1: 2\n", { scanned := 1, findings := 1 }) := by
  intro w job a b c s
  have hnumbered : numbered [a, b, c] = [(0, a), (1, b), (2, c)] := rfl
  obtain ⟨hall, hsome, -⟩ := receive_in_order job w
    [Bytes.ofString "a.java", Bytes.ofString "b.java", Bytes.ofString "c.java"] s
  have hwhole : s.receive 3 [(2, c), (1, b), (0, a)] = (s.writeAll [a, b, c], none) :=
    (hall [(2, c), (1, b), (0, a)] (hnumbered ▸ List.reverse_perm [(0, a), (1, b), (2, c)])).2
  have hpart : s.receive 3 [(2, c), (0, a)] = (s.writeAll [a], some (Sink.endedEarly 1 3)) := by
    have hsent : [(2, c), (0, a)] ⊆ numbered [a, b, c] := by
      rw [hnumbered]
      simp
    have hmissing : ¬ numbered [a, b, c] ⊆ [(2, c), (0, a)] := by
      rw [hnumbered]
      simp
    have hone : Exchange.FirstMissing [(2, c), (0, a)] 1 := by
      constructor
      · intro k hk
        exact ⟨a, by simp; omega⟩
      · simp
    obtain ⟨n, -, hfirst, -, hreceive⟩ := hsome [(2, c), (0, a)] (by simp) hsent hmissing
    rw [hfirst.unique hone] at hreceive
    exact hreceive
  refine ⟨hwhole, hpart, ?_, ?_⟩
  · rw [hwhole]
    decide +kernel
  · rw [hpart]
    decide +kernel

end MagicNumbers

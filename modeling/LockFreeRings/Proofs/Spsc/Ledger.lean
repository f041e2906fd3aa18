import LockFreeRings.Proofs.Spsc.Dealings
import Mathlib.Data.List.Perm.Basic
set_option autoImplicit false

/-!
# The books of a session

A ledger books dealings.  An element gets the next number when it comes and keeps it: in the
queue, where its value may be changed, and when it is closed with its fate.  So at any time
each number up to those that came stands in the ledger once, but for elements whose ending
failed: these are ended and still queued (`Ledger.Covers`).

Which dealings agree with the books is another matter (`Ledger.Agrees`): what is returned has
to be the element at the front, with the value that it has by then, and nothing can be changed
or taken where nothing is queued.  Where dealings agree, the queue of the ledger counts what
was published and not removed (`Ledger.length_queue_after`).
-/

namespace LockFreeRings.Spsc

variable {k : Nat} {ω : Type}

/-- How an element ends, as far as the queue is concerned. -/
inductive Fate where
  /-- it came back from a push that was refused -/
  | refused
  /-- it was handed to a caller of the consumer -/
  | returned
  /-- the library ended it -/
  | ended
  /-- nothing will be done with it any more -/
  | leaked
  deriving DecidableEq, Repr

/-- An element and its number. -/
structure Entry (k : Nat) (ω : Type) where
  number : Nat
  value : Element k ω

/-- The elements that came to a queue. -/
structure Ledger (k : Nat) (ω : Type) where
  /-- how many came -/
  came : Nat := 0
  /-- those that are queued, the oldest first -/
  queue : List (Entry k ω) := []
  /-- those that have met their fate -/
  closed : List (Entry k ω × Fate) := []

namespace Ledger

variable {l : Ledger k ω} {v : Element k ω} {d : Dealing k ω} {ds ds' : List (Dealing k ω)}

/-- An element comes and meets its fate at once. -/
def comeAndGo (l : Ledger k ω) (v : Element k ω) (fate : Fate) : Ledger k ω :=
  { l with came := l.came + 1, closed := l.closed ++ [(⟨l.came, v⟩, fate)] }

/-- The oldest element meets its fate. -/
def takeFront (l : Ledger k ω) (fate : Fate) : Ledger k ω :=
  match l.queue with
  | [] => l
  | entry :: entries => { l with queue := entries, closed := l.closed ++ [(entry, fate)] }

/-- The oldest element meets a fate and is not removed. -/
def markFront (l : Ledger k ω) (fate : Fate) : Ledger k ω :=
  match l.queue with
  | [] => l
  | entry :: _ => { l with closed := l.closed ++ [(entry, fate)] }

/-- Books a dealing. -/
def record (l : Ledger k ω) : Dealing k ω → Ledger k ω
  | .refused v _ => l.comeAndGo v .refused
  | .copied _ => l
  | .stranded v => l.comeAndGo v .leaked
  | .published v => { l with came := l.came + 1, queue := l.queue ++ [⟨l.came, v⟩] }
  | .unfilled => l
  | .edited v => { l with queue := l.queue.modify 0 fun entry => { entry with value := v } }
  | .returned _ => l.takeFront .returned
  | .released => l.takeFront .ended
  | .endFailed => l.markFront .ended

/-- Books dealings in turn. -/
def after (l : Ledger k ω) (ds : List (Dealing k ω)) : Ledger k ω := ds.foldl record l

/-- Whether a dealing agrees with the books. -/
def Agrees (l : Ledger k ω) : Dealing k ω → Prop
  | .refused v back => back = v
  | .copied _ | .stranded _ | .published _ => True
  | .unfilled => False
  | .edited _ | .released | .endFailed => l.queue ≠ []
  | .returned v => l.queue.head?.map Entry.value = some v

/-- Whether dealings agree with the books, each as they are by then. -/
def AllAgree : Ledger k ω → List (Dealing k ω) → Prop
  | _, [] => True
  | l, d :: ds => l.Agrees d ∧ (l.record d).AllAgree ds

/-- All fates, if nothing is done any more: what is queued stays where it is. -/
def fates (l : Ledger k ω) : List (Entry k ω × Fate) :=
  l.closed ++ l.queue.map fun entry => (entry, .leaked)

/-- The elements that the library ended, as they were by then. -/
def ended (l : Ledger k ω) : List (Element k ω) :=
  l.closed.filterMap fun (entry, fate) => if fate = .ended then some entry.value else none

/-- The elements that are queued, as they are now. -/
def values (l : Ledger k ω) : List (Element k ω) := l.queue.map Entry.value

theorem after_append (l : Ledger k ω) (ds ds' : List (Dealing k ω)) :
    l.after (ds ++ ds') = (l.after ds).after ds' :=
  List.foldl_append

theorem allAgree_append : l.AllAgree (ds ++ ds') ↔ l.AllAgree ds ∧ (l.after ds).AllAgree ds' := by
  induction ds generalizing l with
  | nil => simp [AllAgree, after]
  | cons d ds ih =>
      show l.Agrees d ∧ (l.record d).AllAgree (ds ++ ds') ↔ _
      rw [ih]
      exact and_assoc.symm

/-! ## Numbers -/

/-- The numbers of all elements. -/
def numbers (l : Ledger k ω) : List Nat := l.fates.map fun fate => fate.1.number

theorem numbers_eq (l : Ledger k ω) : l.numbers =
    l.closed.map (fun fate => fate.1.number) ++ l.queue.map Entry.number := by
  simp [numbers, fates]

theorem numbers_comeAndGo (l : Ledger k ω) (v : Element k ω) (fate : Fate) :
    (l.comeAndGo v fate).numbers.Perm (l.numbers ++ [l.came]) := by
  simp only [numbers_eq, comeAndGo, List.map_append, List.map_cons, List.map_nil,
    List.append_assoc]
  exact List.perm_append_comm.append_left _

theorem numbers_takeFront (l : Ledger k ω) (fate : Fate) :
    (l.takeFront fate).numbers.Perm l.numbers := by
  unfold takeFront
  split
  · exact .refl _
  · next entry entries heq =>
    simp [numbers_eq, heq]

theorem came_takeFront (l : Ledger k ω) (fate : Fate) : (l.takeFront fate).came = l.came := by
  unfold takeFront
  split <;> rfl

theorem queue_markFront (l : Ledger k ω) (fate : Fate) : (l.markFront fate).queue = l.queue := by
  unfold markFront
  split <;> rfl

theorem came_markFront (l : Ledger k ω) (fate : Fate) : (l.markFront fate).came = l.came := by
  unfold markFront
  split <;> rfl

/-- Each element that came has a fate, and those in `again` have one more for each time that
their number stands there. -/
structure Covers (l : Ledger k ω) (again : List Nat) : Prop where
  numbers : l.numbers.Perm (List.range l.came ++ again)
  lt : ∀ i ∈ again, i < l.came

namespace Covers

variable {again : List Nat}

theorem new : Covers ({} : Ledger k ω) [] := ⟨.refl _, by simp⟩

/-- The next number is given to the element that comes. -/
theorem come {l' : Ledger k ω} (h : l.Covers again)
    (hnumbers : l'.numbers.Perm (l.numbers ++ [l.came])) (hcame : l'.came = l.came + 1) :
    l'.Covers again where
  numbers := by
    rw [hcame, List.range_succ, List.append_assoc]
    refine hnumbers.trans ((h.numbers.append_right _).trans ?_)
    rw [List.append_assoc]
    exact List.perm_append_comm.append_left _
  lt i hi := by
    rw [hcame]
    exact Nat.lt_succ_of_lt (h.lt i hi)

/-- Fates are met by elements that came. -/
theorem of_perm {l' : Ledger k ω} (h : l.Covers again) (hnumbers : l'.numbers.Perm l.numbers)
    (hcame : l'.came = l.came) : l'.Covers again where
  numbers := by
    rw [hcame]
    exact hnumbers.trans h.numbers
  lt := by
    rw [hcame]
    exact h.lt

/-- An element that is queued came. -/
theorem lt_of_queued (h : l.Covers again) {entry : Entry k ω} (hentry : entry ∈ l.queue) :
    entry.number < l.came := by
  have hmem : entry.number ∈ l.numbers := by
    rw [numbers_eq, List.mem_append]
    exact .inr (List.mem_map_of_mem hentry)
  rcases List.mem_append.mp (h.numbers.subset hmem) with hrange | hagain
  · exact List.mem_range.mp hrange
  · exact h.lt _ hagain

/-- The oldest element meets a fate too many. -/
theorem markFront (h : l.Covers again) {entry : Entry k ω} {entries : List (Entry k ω)}
    (hqueue : l.queue = entry :: entries) (fate : Fate) :
    (l.markFront fate).Covers (again ++ [entry.number]) where
  numbers := by
    have hmarked : (l.markFront fate).numbers.Perm (l.numbers ++ [entry.number]) := by
      rw [numbers_eq, numbers_eq, Ledger.markFront, hqueue]
      simp only [List.map_append, List.map_cons, List.map_nil, List.append_assoc]
      exact List.perm_append_comm.append_left _
    rw [came_markFront, ← List.append_assoc]
    exact hmarked.trans (h.numbers.append_right _)
  lt i hi := by
    rw [came_markFront]
    rcases List.mem_append.mp hi with hi | hi
    · exact h.lt i hi
    · rw [List.mem_singleton.mp hi]
      exact h.lt_of_queued (by rw [hqueue]; exact List.mem_cons_self)

/-- A dealing gives each element that comes a fate, and a second one only where ending an
element fails. -/
theorem record (h : l.Covers again) (hagree : l.Agrees d) :
    ∃ more : List Nat, more.length = [d].countP Dealing.isEndFailed ∧
      (l.record d).Covers (again ++ more) := by
  have hsame : ∀ {l' : Ledger k ω}, l'.Covers again →
      ∃ more : List Nat, more.length = 0 ∧ l'.Covers (again ++ more) := by
    intro l' hcovers
    exact ⟨[], rfl, by rwa [List.append_nil]⟩
  cases d with
  | refused v back => exact hsame (h.come (l.numbers_comeAndGo v .refused) rfl)
  | copied v => exact hsame h
  | stranded v => exact hsame (h.come (l.numbers_comeAndGo v .leaked) rfl)
  | published v =>
      refine hsame (h.come ?_ rfl)
      simp [Ledger.record, numbers_eq]
  | unfilled => exact hsame h
  | edited v =>
      refine hsame (h.of_perm ?_ rfl)
      rw [numbers_eq, numbers_eq]
      cases hq : l.queue <;> simp [Ledger.record, hq]
  | returned v => exact hsame (h.of_perm (l.numbers_takeFront _) (l.came_takeFront _))
  | released => exact hsame (h.of_perm (l.numbers_takeFront _) (l.came_takeFront _))
  | endFailed =>
      obtain ⟨entry, entries, hqueue⟩ := List.exists_cons_of_ne_nil hagree
      exact ⟨[entry.number], rfl, h.markFront hqueue .ended⟩

/-- As many elements have a fate too many as endings failed. -/
theorem after (h : l.Covers again) (hagree : l.AllAgree ds) :
    ∃ more : List Nat, more.length = ds.countP Dealing.isEndFailed ∧
      (l.after ds).Covers (again ++ more) := by
  induction ds generalizing l again with
  | nil => exact ⟨[], rfl, by rwa [List.append_nil]⟩
  | cons d ds ih =>
      obtain ⟨first, hfirst, hrecord⟩ := h.record hagree.1
      obtain ⟨more, hmore, hafter⟩ := ih hrecord hagree.2
      refine ⟨first ++ more, ?_, ?_⟩
      · rw [List.length_append, hfirst, hmore, ← List.countP_append, List.singleton_append]
      · rw [← List.append_assoc]
        exact hafter

/-- Each element has one fate just when none has a fate too many. -/
theorem perm_range_iff (h : l.Covers again) :
    l.numbers.Perm (List.range l.came) ↔ again = [] := by
  constructor
  · intro hperm
    have hlength := hperm.length_eq.symm.trans h.numbers.length_eq
    rw [List.length_append] at hlength
    exact List.eq_nil_of_length_eq_zero (by omega)
  · rintro rfl
    have hnumbers := h.numbers
    rwa [List.append_nil] at hnumbers

end Covers

/-! ## Counts -/

/-- What is queued was published and not removed. -/
theorem length_queue_record (h : l.Agrees d) :
    (l.record d).queue.length + [d].countP Dealing.isRemoval =
      l.queue.length + [d].countP Dealing.isPublished := by
  have hfront : ∀ fate, l.queue ≠ [] →
      (l.takeFront fate).queue.length + 1 = l.queue.length := by
    intro fate hne
    unfold takeFront
    split
    · next heq => exact absurd heq hne
    · next heq => rw [heq]; rfl
  cases d with
  | refused v back | copied v | stranded v | unfilled => rfl
  | published v => simp [record, Dealing.isRemoval, Dealing.isPublished]
  | edited v => simp [record, Dealing.isRemoval, Dealing.isPublished]
  | returned v =>
      have hne : l.queue ≠ [] := by
        rintro heq
        simp [Agrees, heq] at h
      exact hfront .returned hne
  | released => exact hfront .ended h
  | endFailed =>
      rw [record, queue_markFront]
      rfl

theorem length_queue_after (h : l.AllAgree ds) :
    (l.after ds).queue.length + ds.countP Dealing.isRemoval =
      l.queue.length + ds.countP Dealing.isPublished := by
  induction ds generalizing l with
  | nil => rfl
  | cons d ds ih =>
      have hfirst := length_queue_record h.1
      have hrest : ((l.record d).after ds).queue.length + _ = _ := ih h.2
      have hcount : ∀ p : Dealing k ω → Bool, (d :: ds).countP p = [d].countP p + ds.countP p := by
        intro p
        rw [← List.countP_append, List.singleton_append]
      have hremoval := hcount Dealing.isRemoval
      have hpublished := hcount Dealing.isPublished
      show ((l.record d).after ds).queue.length + _ = _
      omega

/-! ## Values -/

theorem values_takeFront (l : Ledger k ω) (fate : Fate) :
    (l.takeFront fate).values = l.values.tail := by
  unfold takeFront values
  split
  · next heq => rw [heq]; rfl
  · next heq => rw [heq]; rfl

theorem values_edited (l : Ledger k ω) (v : Element k ω) :
    (l.record (.edited v)).values = l.values.set 0 v := by
  unfold record values
  cases l.queue <;> rfl

/-- Elements that come and are published. -/
theorem allAgree_published (l : Ledger k ω) (vs : List (Element k ω)) :
    l.AllAgree (vs.map .published) ∧ (l.after (vs.map .published)).values = l.values ++ vs ∧
      (l.after (vs.map .published)).ended = l.ended := by
  induction vs generalizing l with
  | nil => exact ⟨trivial, (List.append_nil _).symm, rfl⟩
  | cons v vs ih =>
      obtain ⟨hagree, hvalues, hended⟩ := ih (l.record (.published v))
      refine ⟨⟨trivial, hagree⟩, ?_, hended⟩
      refine hvalues.trans ?_
      simp [record, values]

/-- Copies are booked when it is known what becomes of them. -/
theorem allAgree_copied (l : Ledger k ω) (vs : List (Element k ω)) :
    l.AllAgree (vs.map .copied) ∧ l.after (vs.map .copied) = l := by
  induction vs with
  | nil => exact ⟨trivial, rfl⟩
  | cons v vs ih => exact ⟨⟨trivial, ih.1⟩, ih.2⟩

/-- Elements that come and are left behind. -/
theorem allAgree_stranded (l : Ledger k ω) (vs : List (Element k ω)) :
    l.AllAgree (vs.map .stranded) ∧ (l.after (vs.map .stranded)).values = l.values ∧
      (l.after (vs.map .stranded)).ended = l.ended := by
  induction vs generalizing l with
  | nil => exact ⟨trivial, rfl, rfl⟩
  | cons v vs ih =>
      obtain ⟨hagree, hvalues, hended⟩ := ih (l.record (.stranded v))
      refine ⟨⟨trivial, hagree⟩, hvalues, hended.trans ?_⟩
      simp [record, comeAndGo, ended]

theorem ended_takeFront (l : Ledger k ω) (fate : Fate) :
    (l.takeFront fate).ended =
      l.ended ++ if fate = .ended then l.values.head?.toList else [] := by
  unfold takeFront ended values
  split
  · next heq => simp [heq]
  · next entry entries heq =>
    simp only [heq, List.filterMap_append, List.map_cons, List.head?_cons]
    by_cases hfate : fate = .ended <;> simp [hfate]

/-- The oldest elements are returned. -/
theorem allAgree_returned (l : Ledger k ω) {vs : List (Element k ω)} (h : vs <+: l.values) :
    l.AllAgree (vs.map .returned) ∧
      (l.after (vs.map .returned)).values = l.values.drop vs.length ∧
        (l.after (vs.map .returned)).ended = l.ended := by
  induction vs generalizing l with
  | nil => exact ⟨trivial, rfl, rfl⟩
  | cons v vs ih =>
      obtain ⟨rest, hrest⟩ := h
      have htail : (l.record (.returned v)).values = vs ++ rest := by
        rw [record, values_takeFront, ← hrest]
        rfl
      obtain ⟨hagree, hvalues, hended⟩ := ih (l.record (.returned v)) ⟨rest, htail.symm⟩
      refine ⟨⟨?_, hagree⟩, ?_, ?_⟩
      · rw [Agrees, ← List.head?_map]
        show l.values.head? = some v
        rw [← hrest]
        rfl
      · refine hvalues.trans ?_
        rw [htail, ← hrest]
        rfl
      · refine hended.trans ?_
        rw [record, ended_takeFront, if_neg (by decide), List.append_nil]

/-- The oldest element is ended. -/
theorem agrees_released (h : l.values.head? = some v) :
    l.Agrees .released ∧ (l.record .released).ended = l.ended ++ [v] := by
  refine ⟨?_, ?_⟩
  · rintro heq
    rw [values, heq] at h
    cases h
  · rw [record, ended_takeFront, h, if_pos rfl]
    rfl

/-- The oldest element is to be ended, and is not removed. -/
theorem agrees_endFailed (h : l.values.head? = some v) :
    l.Agrees .endFailed ∧ (l.record .endFailed).ended = l.ended ++ [v] := by
  obtain ⟨entry, hentry, rfl⟩ : ∃ entry, l.queue.head? = some entry ∧ entry.value = v := by
    rw [values, List.head?_map] at h
    exact Option.map_eq_some_iff.mp h
  obtain ⟨entries, hqueue⟩ := List.head?_eq_some_iff.mp hentry
  refine ⟨fun hnil => ?_, ?_⟩
  · rw [hqueue] at hnil
    cases hnil
  · rw [record, markFront, hqueue]
    simp [ended]

end Ledger

end LockFreeRings.Spsc

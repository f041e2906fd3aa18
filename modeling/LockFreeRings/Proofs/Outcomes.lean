import LockFreeRings.Building
import LockFreeRings.Proofs.Mpmc.Cellwise
import LockFreeRings.Proofs.Rounding
import LockFreeRings.Proofs.Spsc.Borrowing
set_option autoImplicit false

/-!
# What comes of building a ring

Two numbers decide it: the least power of two `s` that has room for the capacity, and the
bytes of `s` slots, both without a bound.  If `s` is no word there is no ring, and nothing is
logged.  Otherwise it is logged that the capacity was rounded, if it was; then the bytes may
be more than can be addressed, or than the allocator grants, which is logged too; and else
there is a new ring.  `Outcome` says this of either kind of ring, and `build_outcome` that it
is so for every capacity, slot and allocator.
-/

namespace LockFreeRings

/-! ## Storage -/

/-- The allocator has no room for so many bytes, by its limit or because it is short of
them. -/
def Allocator.Refuses (allocator : Allocator) (bytes alignment : Nat) : Prop :=
  allocatorLimit ≤ bytes ∨ 0 < bytes ∧ allocator.short bytes alignment = true

namespace Allocator

variable {allocator : Allocator} {slots : SlotCount} {layout : SlotLayout}

theorem fault?_of_unaddressable (h : addressLimit ≤ slots.size * layout.bytes) :
    allocator.fault? slots layout = some .unaddressable := by
  simp only [fault?, storageFault?, if_pos h]

theorem fault?_of_refuses (h : slots.size * layout.bytes < addressLimit)
    (hrefuses : allocator.Refuses (slots.size * layout.bytes) layout.alignment) :
    allocator.fault? slots layout =
      some (.exhausted (slots.size * layout.bytes) layout.alignment) := by
  simp only [fault?, storageFault?, if_neg (Nat.not_le.mpr h)]
  by_cases hlimit : allocatorLimit ≤ slots.size * layout.bytes
  · simp only [if_pos hlimit]
  · obtain ⟨hpos, hshort⟩ := hrefuses.resolve_left hlimit
    simp only [if_neg hlimit]
    simp [hpos.ne', hshort]

theorem fault?_of_not_refuses (h : slots.size * layout.bytes < addressLimit)
    (hgrants : ¬ allocator.Refuses (slots.size * layout.bytes) layout.alignment) :
    allocator.fault? slots layout = none := by
  obtain ⟨hlimit, hshort⟩ := not_or.mp hgrants
  simp only [fault?, storageFault?, if_neg (Nat.not_le.mpr h), if_neg hlimit]
  simp only [Nat.pos_iff_ne_zero, not_and] at hshort
  simpa using hshort

end Allocator

/-! ## New rings -/

/-- The queue is empty, and both handles report that all slots but one can be used. -/
structure Spsc.Ring.Fresh {n : SlotCount} {k : Nat} {ω : Type} (r : Ring n k ω) : Prop where
  pop : r.pop.1 = none
  producer : ∀ (watched : Bool) (fuel : Nat) (scene : Scene k ω),
    (Session.exec watched (fuel + 1) { scene := scene, ring := r } (.command .producerCapacity)).1 =
      .mk (.capacity (UInt64.ofNat (n.size - 1))) [] (some ⟨0, true, false⟩) (some ⟨0, true⟩)
  consumer : ∀ (watched : Bool) (fuel : Nat) (scene : Scene k ω),
    (Session.exec watched (fuel + 1) { scene := scene, ring := r } (.command .consumerCapacity)).1 =
      .mk (.capacity (UInt64.ofNat (n.size - 1))) [] (some ⟨0, true, false⟩) (some ⟨0, true⟩)

/-- The queue is empty, it reports that all slots can be used, and each slot has its own
number as its sequence number. -/
structure Mpmc.Ring.Fresh {n : SlotCount} {α : Type} (r : Ring n α) : Prop where
  pop : r.pop.1 = .empty
  capacity : ∀ (watched : Bool) (fuel : Nat), (runCommand watched (fuel + 1) .capacity r).report =
    .mk (.capacity (UInt64.ofNat n.size)) [] 0 true false
  seq : ∀ (i : Nat) (h : i < n.size), r.slots[i].seq = UInt64.ofNat i

theorem Spsc.Ring.fresh_new {k : Nat} {ω : Type} (n : SlotCount) (blank : Element k ω) :
    (new n blank).Fresh := by
  have hroom : ¬ 0 = n.size - 1 := by
    have := n.two_le_size
    omega
  have hreport : report {} (.capacity n.mask) [] (new n blank) =
      .mk (.capacity n.mask) [] (some ⟨0, true, false⟩) (some ⟨0, true⟩) := by
    rw [(Represents.new n blank).report_eq]
    simp only [Fifo.report, List.length_nil, if_true, decide_true, decide_eq_false hroom]
    rfl
  obtain ⟨-, -, hpop, -⟩ := (Represents.new n blank).pop_of_empty rfl
  exact ⟨hpop, fun _ _ _ => hreport, fun _ _ _ => hreport⟩

theorem Mpmc.Ring.fresh_new {α : Type} (n : SlotCount) (blank : α) : (new n blank).Fresh where
  pop := (Represents.new n blank).pop_eq.1
  capacity watched fuel := by
    have hroom : ¬ 0 = n.size := n.size_pos.ne
    have hsize : (new n blank).size = 0 := by simp [size, sizeBetween, new]
    have hempty := (Represents.new n blank).isEmpty_eq
    have hfull := (Represents.new n blank).isFull_eq
    simp only [List.length_nil, decide_true, decide_eq_false hroom] at hempty hfull
    simp only [runCommand, runWith, Ran.report, hsize, hempty, hfull]
    rfl
  seq i h := by simp [new]

/-! ## Outcomes -/

/-- An entry of the log as it is written: its level and its fields. -/
abbrev LoggedLine : Type := LogLevel × List (String × String)

/-- How an entry is written. -/
def LogEntry.line (entry : LogEntry) : LoggedLine := (entry.level, entry.fields)

/-- The line about a capacity that was rounded to another number. -/
def roundingLines (requested s : Nat) : List LoggedLine :=
  if s = requested then []
  else [(.debug, [("requested", toString requested), ("slots", toString s)])]

/-- The line about `s` slots for which there is no storage. -/
def refusalLine (s : Nat) (fault : StorageFault) : LoggedLine :=
  (.error, [("slots", toString s), ("source", fault.message)])

/-- What may come of building a ring that is to be `Fresh`, and what is logged, when `s` is the
least power of two that has room for the capacity. -/
inductive Outcome {ρ : SlotCount → Type} (Fresh : (n : SlotCount) → ρ n → Prop)
    (requested : UInt64) (layout : SlotLayout) (allocator : Allocator) (s : Nat) :
    List LoggedLine → Except BuildError ((n : SlotCount) × ρ n) → Prop
  /-- the number of slots is no word -/
  | overflow (h : 2 ^ 64 ≤ s) :
    Outcome Fresh requested layout allocator s [] (.error (.capacityOverflow requested))
  /-- the bytes cannot be addressed -/
  | unaddressable {slots : SlotCount} (hsize : slots.size = s) (h : 2 ^ 63 ≤ s * layout.bytes) :
    Outcome Fresh requested layout allocator s
      (roundingLines requested.toNat s ++ [refusalLine s .unaddressable])
      (.error (.allocation slots .unaddressable))
  /-- the allocator refuses them -/
  | refused {slots : SlotCount} (hsize : slots.size = s) (h : s * layout.bytes < 2 ^ 63)
    (hrefuses : allocator.Refuses (s * layout.bytes) layout.alignment) :
    Outcome Fresh requested layout allocator s
      (roundingLines requested.toNat s ++
        [refusalLine s (.exhausted (s * layout.bytes) layout.alignment)])
      (.error (.allocation slots (.exhausted (s * layout.bytes) layout.alignment)))
  /-- there is a new ring -/
  | built {slots : SlotCount} (hsize : slots.size = s) (h : s * layout.bytes < 2 ^ 63)
    (hgrants : ¬ allocator.Refuses (s * layout.bytes) layout.alignment) {r : ρ slots}
    (hfresh : Fresh slots r) :
    Outcome Fresh requested layout allocator s (roundingLines requested.toNat s) (.ok ⟨slots, r⟩)

theorem map_line_roundingLog (requested : UInt64) (slots : SlotCount) :
    (roundingLog requested slots).map LogEntry.line =
      roundingLines requested.toNat slots.size := by
  have hword : slots.word = requested ↔ slots.size = requested.toNat := by
    rw [← UInt64.toNat_inj, SlotCount.toNat_word]
  simp only [roundingLog, roundingLines, hword]
  split <;> rfl

theorem map_line_refused (requested : UInt64) (slots : SlotCount) (fault : StorageFault) :
    (roundingLog requested slots ++ [LogEntry.storageRefused slots fault]).map LogEntry.line =
      roundingLines requested.toNat slots.size ++ [refusalLine slots.size fault] := by
  rw [List.map_append, map_line_roundingLog]
  rfl

/-- A power that is no word was too great to be rounded to. -/
theorem le_of_roundUp_eq_none {requested : UInt64} {s : Nat}
    (hs : IsLeast (powersFrom requested.toNat) s) (h : SlotCount.roundUp requested = none) :
    2 ^ 64 ≤ s := by
  have hlarge := SlotCount.roundUp_eq_none_iff.mp h
  have hle := le_of_isLeast_powersFrom hs
  obtain ⟨⟨⟨k, rfl⟩, -⟩, -⟩ := hs
  have hlt : 63 < k := (Nat.pow_lt_pow_iff_right Nat.one_lt_two).mp (hlarge.trans_le hle)
  exact Nat.pow_le_pow_right Nat.two_pos hlt

/-- What comes of building, when new rings are fresh. -/
theorem construct_outcome {ρ : SlotCount → Type} {Fresh : (n : SlotCount) → ρ n → Prop}
    {new : (n : SlotCount) → ρ n} (hnew : ∀ n, Fresh n (new n)) (requested : UInt64)
    (layout : SlotLayout) (allocator : Allocator) {s : Nat}
    (hs : IsLeast (powersFrom requested.toNat) s) :
    Outcome Fresh requested layout allocator s
      (((construct requested layout allocator).fill new).log.map LogEntry.line)
      ((construct requested layout allocator).fill new).outcome := by
  cases hround : SlotCount.roundUp requested with
  | none =>
      simp only [construct, hround]
      exact .overflow (le_of_roundUp_eq_none hs hround)
  | some slots =>
      obtain rfl := (SlotCount.isLeast_of_roundUp hround).unique hs
      rcases Nat.lt_or_ge (slots.size * layout.bytes) addressLimit with hlt | hge
      · by_cases hrefuses : allocator.Refuses (slots.size * layout.bytes) layout.alignment
        · simp only [construct, hround, Allocator.fault?_of_refuses hlt hrefuses,
            Construction.fill, map_line_refused]
          exact .refused rfl hlt hrefuses
        · simp only [construct, hround, Allocator.fault?_of_not_refuses hlt hrefuses,
            Construction.fill, map_line_roundingLog]
          exact .built rfl hlt hrefuses (hnew slots)
      · simp only [construct, hround, Allocator.fault?_of_unaddressable hge,
          Construction.fill, map_line_refused]
        exact .unaddressable rfl hge

/-- Either kind of ring, from a capacity or from a configuration that has it, comes out as the
least power of two that has room for the capacity decides. -/
theorem build_outcome (requested : UInt64) (layout : SlotLayout) (allocator : Allocator) :
    ∃ s, IsLeast (powersFrom requested.toNat) s ∧
      ∀ {k : Nat} {ω α : Type} (element : Spsc.Element k ω) (value : α),
        (∀ built ∈ [Spsc.Ring.build requested layout element allocator,
            Spsc.Ring.buildFrom ⟨requested⟩ layout element allocator],
          Outcome (fun _ => Spsc.Ring.Fresh) requested layout allocator s (built.log.map LogEntry.line)
            built.outcome) ∧
        ∀ built ∈ [Mpmc.Ring.build requested layout value allocator,
            Mpmc.Ring.buildFrom ⟨requested⟩ layout value allocator],
          Outcome (fun _ => Mpmc.Ring.Fresh) requested layout allocator s (built.log.map LogEntry.line)
            built.outcome := by
  obtain ⟨s, hs⟩ := exists_isLeast_powersFrom requested.toNat
  refine ⟨s, hs, fun element value => ⟨?_, ?_⟩⟩
  · have houtcome := construct_outcome (fun n => Spsc.Ring.fresh_new n element) requested layout
      allocator hs
    intro built hbuilt
    rw [List.mem_cons, List.mem_singleton] at hbuilt
    rcases hbuilt with rfl | rfl
    · exact houtcome
    · exact houtcome
  · have houtcome := construct_outcome (fun n => Mpmc.Ring.fresh_new n value) requested layout
      allocator hs
    intro built hbuilt
    rw [List.mem_cons, List.mem_singleton] at hbuilt
    rcases hbuilt with rfl | rfl
    · exact houtcome
    · exact houtcome

end LockFreeRings

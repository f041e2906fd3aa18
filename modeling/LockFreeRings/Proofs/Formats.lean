import LockFreeRings.Config.Format
import LockFreeRings.Proofs.Json.Names
set_option autoImplicit false

/-!
# What a format presents is what is read

`Format.Reads` says what the reader of a configuration does with the answers of a format, as a
relation: which fields it asks for, which it passes over, and what it makes of those that are
missing.  `Format.Presents` says that a format gives a JSON value away piece by piece.

Of a value that a format presents, a configuration is read if the value describes it, and no
other (`Format.Presents.reads_iff`).  The induction is on the members still to come, and the
place where the format stands is carried along.
-/

namespace LockFreeRings

namespace Format

variable {P E : Type}

/-! ## What the reader does -/

/-- Fields are read by name up to the last: the capacity as a word, which may be done once, and
the others are passed over. -/
inductive Fields (F : Format P E) : Option UInt64 → P → Option UInt64 → P → Prop where
  | last {known : Option UInt64} {p q : P} (hkey : F.nextKey p = .ok (none, q)) :
      Fields F known p known q
  | capacity {c : UInt64} {known : Option UInt64} {p q r s : P}
      (hkey : F.nextKey p = .ok (some RingConfig.memberName, q))
      (hword : F.nextWord q = .ok (c, r)) (more : Fields F (some c) r known s) :
      Fields F none p known s
  | other {name : String} {known known' : Option UInt64} {p q r s : P}
      (hkey : F.nextKey p = .ok (some name, q)) (hname : name ≠ RingConfig.memberName)
      (hskip : F.skipValue q = .ok r) (more : Fields F known r known' s) :
      Fields F known p known' s

/-- A configuration is read from fields by name or by position; a capacity that is missing is
that of the default. -/
inductive Reads (F : Format P E) : P → RingConfig → P → Prop where
  | map {known : Option UInt64} {p q r s : P} (hopen : F.openStruct p = .ok (.map, q))
      (hfields : F.Fields none q known r) (hend : F.endMap r = .ok s) :
      Reads F p ⟨known.getD (default : RingConfig).capacity⟩ s
  | sequence {first? : Option UInt64} {p q r s : P}
      (hopen : F.openStruct p = .ok (.sequence, q)) (hfirst : F.nextElement q = .ok (first?, r))
      (hend : F.endSequence r = .ok s) :
      Reads F p ⟨first?.getD (default : RingConfig).capacity⟩ s

theorem fields_of_readFields {F : Format P E} {fuel : Nat} {known known' : Option UInt64}
    {p q : P} (h : F.readFields fuel known p = .ok (known', q)) : F.Fields known p known' q := by
  induction fuel generalizing known p with
  | zero => cases h
  | succ fuel ih =>
      unfold readFields at h
      split at h
      · cases h
      · next hkey =>
        cases h
        exact .last hkey
      · next name r hkey =>
        split at h
        · next hname =>
          subst hname
          split at h
          · cases h
          · next hknown =>
            obtain rfl : known = none := by simpa using hknown
            split at h
            · cases h
            · next hword => exact .capacity hkey hword (ih h)
        · next hname =>
          split at h
          · cases h
          · next hskip => exact .other hkey hname hskip (ih h)

theorem reads_of_readStruct {F : Format P E} {fuel : Nat} {p q : P} {config : RingConfig}
    (h : F.readStruct fuel p = .ok (config, q)) : F.Reads p config q := by
  unfold readStruct at h
  split at h
  · cases h
  · next hopen =>
    split at h
    · cases h
    · next known r hfields =>
      cases hend : F.endMap r with
      | error e =>
          rw [hend] at h
          cases h
      | ok s =>
          rw [hend] at h
          cases h
          exact .map hopen (fields_of_readFields hfields) hend
  · next hopen =>
    split at h
    · cases h
    · next first? r hfirst =>
      cases hend : F.endSequence r with
      | error e =>
          rw [hend] at h
          cases h
      | ok s =>
          rw [hend] at h
          cases h
          exact .sequence hopen hfirst hend

/-- Names take up what is read, and what is behind them gives nothing back. -/
structure Shrinks (F : Format P E) (size : P → Nat) : Prop where
  openStruct : ∀ {p q layout}, F.openStruct p = .ok (layout, q) → size q ≤ size p
  nextKey : ∀ {p q name}, F.nextKey p = .ok (some name, q) → size q < size p
  nextWord : ∀ {p q c}, F.nextWord p = .ok (c, q) → size q ≤ size p
  skipValue : ∀ {p q}, F.skipValue p = .ok q → size q ≤ size p

namespace Shrinks

variable {F : Format P E} {size : P → Nat}

/-- The reader gets to the last field when it has a step for each of them. -/
theorem readFields (hF : F.Shrinks size) {known known' : Option UInt64} {p q : P}
    (h : F.Fields known p known' q) {fuel : Nat} (hfuel : size p < fuel) :
    F.readFields fuel known p = .ok (known', q) := by
  induction h generalizing fuel with
  | last hkey =>
      obtain ⟨fuel, rfl⟩ := Nat.exists_eq_add_one.mpr (Nat.zero_lt_of_lt hfuel)
      simp only [Format.readFields, hkey]
  | capacity hkey hword _ ih =>
      obtain ⟨fuel, rfl⟩ := Nat.exists_eq_add_one.mpr (Nat.zero_lt_of_lt hfuel)
      have hlt := hF.nextKey hkey
      have hle := hF.nextWord hword
      simp only [Format.readFields, hkey, hword]
      exact ih (by omega)
  | other hkey hname hskip _ ih =>
      obtain ⟨fuel, rfl⟩ := Nat.exists_eq_add_one.mpr (Nat.zero_lt_of_lt hfuel)
      have hlt := hF.nextKey hkey
      have hle := hF.skipValue hskip
      simp only [Format.readFields, hkey, if_neg hname, hskip]
      exact ih (by omega)

theorem readStruct_eq_ok_iff (hF : F.Shrinks size) {p q : P} {config : RingConfig} {fuel : Nat}
    (hfuel : size p < fuel) : F.readStruct fuel p = .ok (config, q) ↔ F.Reads p config q := by
  refine ⟨reads_of_readStruct, fun h => ?_⟩
  cases h with
  | map hopen hfields hend =>
      have hle := hF.openStruct hopen
      simp only [Format.readStruct, hopen, hF.readFields hfields (Nat.lt_of_le_of_lt hle hfuel), hend]
      rfl
  | sequence hopen hfirst hend =>
      simp only [Format.readStruct, hopen, hfirst, hend]
      rfl

end Shrinks

end Format

/-! ## What a value tells -/

namespace RingConfig

/-- What a value tells about a configuration. -/
inductive Describes : Json → RingConfig → Prop where
  /-- an object without a capacity -/
  | absent {members : List (String × Json)} (h : memberName ∉ members.map Prod.fst) :
      Describes (.object members) ⟨1024⟩
  /-- an object with a capacity, whatever else is in it -/
  | member {members : List (String × Json)} {c : UInt64}
      (h : (memberName, .number (.natural c)) ∈ members) : Describes (.object members) ⟨c⟩
  /-- an array without elements -/
  | empty : Describes (.array []) ⟨1024⟩
  /-- an array of the capacity -/
  | element (c : UInt64) : Describes (.array [.number (.natural c)]) ⟨c⟩

end RingConfig

/-! ## What a format presents -/

/-- What of a value is still to be read. -/
inductive Pending where
  | value (v : Json)
  /-- members of an object -/
  | members (ms : List (String × Json))
  /-- the value of a member, and the members after it -/
  | member (v : Json) (ms : List (String × Json))
  /-- elements of an array -/
  | items (vs : List Json)
  | nothing

namespace Format

open RingConfig

variable {P E : Type}

/-- A format presents JSON values; `At` tells what is still to be read at a place. -/
structure Presents (F : Format P E) (At : Pending → P → Prop) : Prop where
  /-- the members of an object are fields by name, in some order -/
  object : ∀ {p ms}, At (.value (.object ms)) p →
    ∃ ms' q, ms'.Perm ms ∧ F.openStruct p = .ok (.map, q) ∧ At (.members ms') q
  /-- the elements of an array are fields by position -/
  array : ∀ {p vs}, At (.value (.array vs)) p →
    ∃ q, F.openStruct p = .ok (.sequence, q) ∧ At (.items vs) q
  /-- a word, a number or a string is no struct -/
  scalar : ∀ {p v}, At (.value v) p → (∀ ms, v ≠ .object ms) → (∀ vs, v ≠ .array vs) →
    ∀ layout q, F.openStruct p ≠ .ok (layout, q)
  /-- members are met one after another -/
  key : ∀ {p name v ms}, At (.members ((name, v) :: ms)) p →
    ∃ q, F.nextKey p = .ok (some name, q) ∧ At (.member v ms) q
  lastKey : ∀ {p}, At (.members []) p → ∃ q, F.nextKey p = .ok (none, q) ∧ At (.members []) q
  /-- an integer from 0 to `2 ^ 64 - 1` is a word -/
  word : ∀ {p c ms}, At (.member (.number (.natural c)) ms) p →
    ∃ q, F.nextWord p = .ok (c, q) ∧ At (.members ms) q
  /-- and nothing else is -/
  noWord : ∀ {p v ms}, At (.member v ms) p → (∀ c, v ≠ .number (.natural c)) →
    ∀ c q, F.nextWord p ≠ .ok (c, q)
  /-- any value can be passed over -/
  skip : ∀ {p v ms}, At (.member v ms) p → ∃ q, F.skipValue p = .ok q ∧ At (.members ms) q
  element : ∀ {p c vs}, At (.items (.number (.natural c) :: vs)) p →
    ∃ q, F.nextElement p = .ok (some c, q) ∧ At (.items vs) q
  noElement : ∀ {p v vs}, At (.items (v :: vs)) p → (∀ c, v ≠ .number (.natural c)) →
    ∀ first? q, F.nextElement p ≠ .ok (first?, q)
  lastElement : ∀ {p}, At (.items []) p →
    ∃ q, F.nextElement p = .ok (none, q) ∧ At (.items []) q
  /-- what is read by name ends behind the last member -/
  endMap : ∀ {p}, At (.members []) p → ∃ q, F.endMap p = .ok q ∧ At .nothing q
  /-- what is read by position ends behind the last element, and not before it -/
  endSequence : ∀ {p}, At (.items []) p → ∃ q, F.endSequence p = .ok q ∧ At .nothing q
  moreElements : ∀ {p v vs}, At (.items (v :: vs)) p → ∀ q, F.endSequence p ≠ .ok q

namespace Presents

variable {F : Format P E} {At : Pending → P → Prop} {p q : P} {ms : List (String × Json)}

/-! ### Fields by name -/

variable {v : Json}

/-- Names end with the members. -/
theorem eq_nil_of_nextKey (hF : F.Presents At) (hp : At (.members ms) p)
    (h : F.nextKey p = .ok (none, q)) : ms = [] ∧ At (.members []) q := by
  cases ms with
  | nil =>
      obtain ⟨r, hr, hat⟩ := hF.lastKey hp
      cases h.symm.trans hr
      exact ⟨rfl, hat⟩
  | cons member ms =>
      obtain ⟨r, hr, -⟩ := hF.key hp
      cases h.symm.trans hr

/-- A name is that of the next member. -/
theorem exists_cons_of_nextKey (hF : F.Presents At) {name : String} (hp : At (.members ms) p)
    (h : F.nextKey p = .ok (some name, q)) :
    ∃ v ms', ms = (name, v) :: ms' ∧ At (.member v ms') q := by
  cases ms with
  | nil =>
      obtain ⟨r, hr, -⟩ := hF.lastKey hp
      cases h.symm.trans hr
  | cons member ms =>
      obtain ⟨r, hr, hat⟩ := hF.key hp
      cases h.symm.trans hr
      exact ⟨member.2, ms, rfl, hat⟩

theorem members_of_skipValue (hF : F.Presents At) (hp : At (.member v ms) p)
    (h : F.skipValue p = .ok q) : At (.members ms) q := by
  obtain ⟨r, hr, hat⟩ := hF.skip hp
  cases h.symm.trans hr
  exact hat

/-- A word is read where one stands. -/
theorem eq_natural_of_nextWord (hF : F.Presents At) {c : UInt64} (hp : At (.member v ms) p)
    (h : F.nextWord p = .ok (c, q)) : v = .number (.natural c) ∧ At (.members ms) q := by
  by_cases hv : ∀ c, v ≠ .number (.natural c)
  · exact absurd h (hF.noWord hp hv _ _)
  · obtain ⟨c', rfl⟩ : ∃ c', v = .number (.natural c') := by simpa using hv
    obtain ⟨r, hr, hat⟩ := hF.word hp
    cases h.symm.trans hr
    exact ⟨rfl, hat⟩

/-- Behind the capacity no other capacity comes. -/
theorem of_fields_some (hF : F.Presents At) {c : UInt64} {known : Option UInt64}
    (h : F.Fields (some c) p known q) (hp : At (.members ms) p) :
    memberName ∉ ms.map Prod.fst ∧ known = some c ∧ At (.members []) q := by
  generalize hsome : some c = start at h
  induction h generalizing ms with
  | last hkey =>
      obtain ⟨rfl, hat⟩ := hF.eq_nil_of_nextKey hp hkey
      exact ⟨by simp, rfl, hat⟩
  | capacity => cases hsome
  | other hkey hname hskip _ ih =>
      obtain ⟨v, ms, rfl, hat⟩ := hF.exists_cons_of_nextKey hp hkey
      obtain ⟨hnot, hknown, hend⟩ := ih (hF.members_of_skipValue hat hskip) hsome
      refine ⟨?_, hknown, hend⟩
      rw [List.map_cons, List.mem_cons, not_or]
      exact ⟨hname.symm, hnot⟩

/-- Either there is no capacity, or it is a word. -/
theorem of_fields_none (hF : F.Presents At) {known : Option UInt64}
    (h : F.Fields none p known q) (hp : At (.members ms) p) :
    (memberName ∉ ms.map Prod.fst ∧ known = none ∨
      ∃ c, (memberName, .number (.natural c)) ∈ ms ∧ known = some c) ∧ At (.members []) q := by
  generalize hnone : none = start at h
  induction h generalizing ms with
  | last hkey =>
      obtain ⟨rfl, hat⟩ := hF.eq_nil_of_nextKey hp hkey
      exact ⟨.inl ⟨by simp, rfl⟩, hat⟩
  | @capacity c _ _ _ _ _ hkey hword more _ =>
      obtain ⟨v, ms, rfl, hat⟩ := hF.exists_cons_of_nextKey hp hkey
      obtain ⟨rfl, hmore⟩ := hF.eq_natural_of_nextWord hat hword
      obtain ⟨-, hknown, hend⟩ := hF.of_fields_some more hmore
      exact ⟨.inr ⟨c, List.mem_cons_self, hknown⟩, hend⟩
  | other hkey hname hskip _ ih =>
      obtain ⟨v, ms, rfl, hat⟩ := hF.exists_cons_of_nextKey hp hkey
      obtain ⟨hknown, hend⟩ := ih (hF.members_of_skipValue hat hskip) hnone
      refine ⟨hknown.imp (fun hnot => ⟨?_, hnot.2⟩) ?_, hend⟩
      · rw [List.map_cons, List.mem_cons, not_or]
        exact ⟨hname.symm, hnot.1⟩
      · rintro ⟨c, hmem, hc⟩
        exact ⟨c, List.mem_cons_of_mem _ hmem, hc⟩

/-- Members that are not the capacity are passed over. -/
theorem exists_fields_of_notMem (hF : F.Presents At) (known : Option UInt64)
    (hp : At (.members ms) p) (h : memberName ∉ ms.map Prod.fst) :
    ∃ q, F.Fields known p known q ∧ At (.members []) q := by
  induction ms generalizing p with
  | nil =>
      obtain ⟨q, hq, hat⟩ := hF.lastKey hp
      exact ⟨q, .last hq, hat⟩
  | cons member ms ih =>
      rw [List.map_cons, List.mem_cons, not_or] at h
      obtain ⟨q, hq, hat⟩ := hF.key hp
      obtain ⟨r, hr, hat⟩ := hF.skip hat
      obtain ⟨s, hfields, hend⟩ := ih hat h.2
      exact ⟨s, .other hq (Ne.symm h.1) hr hfields, hend⟩

/-- The capacity is found among members of different names. -/
theorem exists_fields_of_mem (hF : F.Presents At) {c : UInt64} (hp : At (.members ms) p)
    (hnames : (ms.map Prod.fst).Nodup) (h : (memberName, .number (.natural c)) ∈ ms) :
    ∃ q, F.Fields none p (some c) q ∧ At (.members []) q := by
  induction ms generalizing p with
  | nil => cases h
  | cons member ms ih =>
      obtain ⟨name, v⟩ := member
      rw [List.map_cons, List.nodup_cons] at hnames
      obtain ⟨q, hq, hat⟩ := hF.key hp
      by_cases hname : name = memberName
      · subst hname
        rcases List.mem_cons.mp h with heq | hmem
        · cases heq
          obtain ⟨r, hr, hat⟩ := hF.word hat
          obtain ⟨s, hfields, hend⟩ := hF.exists_fields_of_notMem (some c) hat hnames.1
          exact ⟨s, .capacity hq hr hfields, hend⟩
        · exact absurd (List.mem_map_of_mem hmem) hnames.1
      · rcases List.mem_cons.mp h with heq | hmem
        · cases heq
          exact absurd rfl hname
        · obtain ⟨r, hr, hat⟩ := hF.skip hat
          obtain ⟨s, hfields, hend⟩ := ih hat hnames.2 hmem
          exact ⟨s, .other hq hname hr hfields, hend⟩

/-! ### Values -/

variable {config : RingConfig}

/-- What is read is what the value describes, and all of it was read. -/
theorem of_reads (hF : F.Presents At) (h : F.Reads p config q) (hp : At (.value v) p) :
    Describes v config ∧ At .nothing q := by
  cases v with
  | object ms =>
      obtain ⟨ms', r, hperm, hr, hat⟩ := hF.object hp
      cases h with
      | map hopen hfields hend =>
          cases hopen.symm.trans hr
          obtain ⟨hknown, hat⟩ := hF.of_fields_none hfields hat
          obtain ⟨s, hs, hat⟩ := hF.endMap hat
          cases hend.symm.trans hs
          refine ⟨?_, hat⟩
          rcases hknown with ⟨hnot, rfl⟩ | ⟨c, hmem, rfl⟩
          · exact .absent fun hmem => hnot ((hperm.map Prod.fst).mem_iff.mpr hmem)
          · exact .member (hperm.mem_iff.mp hmem)
      | sequence hopen => cases hopen.symm.trans hr
  | array vs =>
      obtain ⟨r, hr, hat⟩ := hF.array hp
      cases h with
      | map hopen => cases hopen.symm.trans hr
      | sequence hopen hfirst hend =>
          cases hopen.symm.trans hr
          cases vs with
          | nil =>
              obtain ⟨s, hs, hat⟩ := hF.lastElement hat
              cases hfirst.symm.trans hs
              obtain ⟨t, ht, hat⟩ := hF.endSequence hat
              cases hend.symm.trans ht
              exact ⟨.empty, hat⟩
          | cons v vs =>
              by_cases hv : ∀ c, v ≠ .number (.natural c)
              · exact absurd hfirst (hF.noElement hat hv _ _)
              · obtain ⟨c, rfl⟩ : ∃ c, v = .number (.natural c) := by simpa using hv
                obtain ⟨s, hs, hat⟩ := hF.element hat
                cases hfirst.symm.trans hs
                cases vs with
                | nil =>
                    obtain ⟨t, ht, hat⟩ := hF.endSequence hat
                    cases hend.symm.trans ht
                    exact ⟨.element c, hat⟩
                | cons v vs => exact absurd hend (hF.moreElements hat _)
  | null | bool | number | string =>
      have hnone := hF.scalar hp (by simp) (by simp)
      cases h with
      | map hopen => exact absurd hopen (hnone _ _)
      | sequence hopen => exact absurd hopen (hnone _ _)

/-- What the value describes is read. -/
theorem exists_reads (hF : F.Presents At) (h : Describes v config) (hv : v.DistinctNames)
    (hp : At (.value v) p) : ∃ q, F.Reads p config q ∧ At .nothing q := by
  cases h with
  | absent hnot =>
      obtain ⟨ms', q, hperm, hq, hat⟩ := hF.object hp
      have hnot' := fun hmem => hnot ((hperm.map Prod.fst).mem_iff.mp hmem)
      obtain ⟨r, hfields, hat⟩ := hF.exists_fields_of_notMem none hat hnot'
      obtain ⟨s, hs, hat⟩ := hF.endMap hat
      exact ⟨s, .map hq hfields hs, hat⟩
  | member hmem =>
      obtain ⟨ms', q, hperm, hq, hat⟩ := hF.object hp
      obtain ⟨r, hfields, hat⟩ := hF.exists_fields_of_mem hat
        ((hperm.map Prod.fst).nodup_iff.mpr hv) (hperm.mem_iff.mpr hmem)
      obtain ⟨s, hs, hat⟩ := hF.endMap hat
      exact ⟨s, .map hq hfields hs, hat⟩
  | empty =>
      obtain ⟨q, hq, hat⟩ := hF.array hp
      obtain ⟨r, hr, hat⟩ := hF.lastElement hat
      obtain ⟨s, hs, hat⟩ := hF.endSequence hat
      exact ⟨s, .sequence hq hr hs, hat⟩
  | element c =>
      obtain ⟨q, hq, hat⟩ := hF.array hp
      obtain ⟨r, hr, hat⟩ := hF.element hat
      obtain ⟨s, hs, hat⟩ := hF.endSequence hat
      exact ⟨s, .sequence hq hr hs, hat⟩

/-- Of a value that is presented, the configuration is read that it describes. -/
theorem reads_iff (hF : F.Presents At) (hv : v.DistinctNames) (hp : At (.value v) p) :
    (∃ q, F.Reads p config q) ↔ Describes v config := by
  constructor
  · rintro ⟨q, hreads⟩
    exact (hF.of_reads hreads hp).1
  · intro h
    obtain ⟨q, hreads, -⟩ := hF.exists_reads h hv hp
    exact ⟨q, hreads⟩

end Presents

end Format

end LockFreeRings

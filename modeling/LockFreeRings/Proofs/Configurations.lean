import LockFreeRings.Proofs.Json.Formats
set_option autoImplicit false

/-!
# The two readers of a configuration

A configuration is written and read by code that is derived for its one field, and that code
works on any format.  The formats are those of a library for JSON: texts, and values that are
held as trees.  `RingConfig.Codec` takes all of this as a parameter, and `Codec.Documented` says
what is documented of it, for one move of a reader at a time.

From that alone the two readers agree (`RingConfig.readers_agree`): of a value, and of its text,
the configuration is read that the value describes, and none if it describes none.  The text
reader meets a member that is not the capacity only as something to pass over, so of the values
inside nothing is asked.

Objects are maps: the members of a value that is an object have different names, as those of a
value that was read have (`Json.distinctNames_of_ofText`).

The readers of this library are such a codec (`RingConfig.plain_documented`).
-/

namespace LockFreeRings

namespace RingConfig

/-- What writes and reads configurations: a library for JSON, whose texts are read from places
`P` with errors `E` and whose values from places `Q` with errors `D`, and the code that is derived
for a configuration. -/
structure Codec (P E Q D : Type) where
  /-- a text as a format -/
  texts : Format P E
  /-- a value as a format -/
  trees : Format Q D
  /-- the place before all of a text -/
  openText : String → P
  /-- a text has to end here -/
  closeText : P → Except E Unit
  /-- the place before a value -/
  openTree : Json → Q
  /-- the compact text of a value -/
  print : Json → String
  /-- the value that a text is -/
  parse : String → Except E Json
  /-- a configuration as a value -/
  toTree : RingConfig → Json
  /-- a configuration as a compact text -/
  toText : RingConfig → String
  /-- the configuration that a text is -/
  readText : String → Except E RingConfig
  /-- the configuration that a value is -/
  readTree : Json → Except D RingConfig

namespace Codec

variable {P E Q D : Type}

/-- What is documented of a library for JSON and of the code derived for a struct. -/
structure Documented (C : Codec P E Q D) : Prop where
  /-- a struct is written as an object with its fields as members -/
  toTree : ∀ config, C.toTree config = .object [(memberName, .number (.natural config.capacity))]
  /-- what is written as a text is what is written as a value -/
  toText : ∀ config, C.toText config = C.print (C.toTree config)
  /-- from a text the derived code reads a struct, and then the text has to end -/
  readText : ∀ s config, C.readText s = .ok config ↔
    ∃ p, C.texts.Reads (C.openText s) config p ∧ C.closeText p = .ok ()
  /-- from a value the derived code reads a struct -/
  readTree : ∀ v config, v.DistinctNames →
    (C.readTree v = .ok config ↔ ∃ q, C.trees.Reads (C.openTree v) config q)
  /-- the text of a value presents it, and ends where nothing is left -/
  texts : ∃ At, C.texts.Presents At ∧
    (∀ v, v.DistinctNames → At (.value v) (C.openText (C.print v))) ∧
      ∀ p, At .nothing p → C.closeText p = .ok ()
  /-- a value presents itself -/
  trees : ∃ At, C.trees.Presents At ∧ ∀ v, v.DistinctNames → At (.value v) (C.openTree v)
  /-- an integer that is a member of an object is parsed as it was written -/
  parse : ∀ name c, C.parse (C.print (.object [(name, .number (.natural c))])) =
    .ok (.object [(name, .number (.natural c))])

namespace Documented

variable {C : Codec P E Q D} {v : Json} {config : RingConfig}

theorem readTree_eq_ok_iff (hC : C.Documented) (hv : v.DistinctNames) :
    C.readTree v = .ok config ↔ Describes v config := by
  obtain ⟨At, hpresents, hopen⟩ := hC.trees
  rw [hC.readTree v config hv]
  exact hpresents.reads_iff hv (hopen v hv)

theorem readText_print_eq_ok_iff (hC : C.Documented) (hv : v.DistinctNames) :
    C.readText (C.print v) = .ok config ↔ Describes v config := by
  obtain ⟨At, hpresents, hopen, hclose⟩ := hC.texts
  rw [hC.readText]
  constructor
  · rintro ⟨p, hreads, -⟩
    exact (hpresents.of_reads hreads (hopen v hv)).1
  · intro h
    obtain ⟨p, hreads, hend⟩ := hpresents.exists_reads h hv (hopen v hv)
    exact ⟨p, hreads, hclose p hend⟩

end Documented

end Codec

variable {P E Q D : Type}

/-- A written configuration describes itself. -/
theorem describes_toJson (config : RingConfig) : Describes config.toJson config :=
  .member List.mem_cons_self

theorem distinctNames_toJson (config : RingConfig) : config.toJson.DistinctNames := by
  simp [toJson, Json.DistinctNames]

/-- A configuration is read back from the text that it is written as, from the value, and from the
value that the text is parsed as.  Of any value, and of its text, the configuration is read that
the value describes, and none if it describes none. -/
theorem readers_agree {C : Codec P E Q D} (hC : C.Documented) :
    (∀ config : RingConfig,
      C.readText (C.toText config) = .ok config ∧ C.readTree (C.toTree config) = .ok config ∧
        ∃ v, C.parse (C.toText config) = .ok v ∧ C.readTree v = .ok config) ∧
    ∀ v : Json, v.DistinctNames → ∀ config : RingConfig,
      (C.readTree v = .ok config ↔ Describes v config) ∧
        (C.readText (C.print v) = .ok config ↔ Describes v config) := by
  refine ⟨fun config => ?_, fun v hv config =>
    ⟨hC.readTree_eq_ok_iff hv, hC.readText_print_eq_ok_iff hv⟩⟩
  have hv := distinctNames_toJson config
  have htree : C.toTree config = config.toJson := hC.toTree config
  have htext : C.toText config = C.print config.toJson := by rw [hC.toText, htree]
  have hread := (hC.readTree_eq_ok_iff hv).mpr (describes_toJson config)
  rw [htree, htext]
  exact ⟨(hC.readText_print_eq_ok_iff hv).mpr (describes_toJson config), hread, config.toJson,
    hC.parse memberName config.capacity, hread⟩

/-! ## The readers of this library -/

open Scan

theorem readName_stringChars (name : String) (rest : List Char) :
    Json.readName (Json.stringChars name ++ ':' :: rest) = .ok (name, rest) := by
  rw [stringChars_append, Json.readName, skipBlanks_cons (by decide)]
  simp only [stringTail_flatMap, skipBlanks_cons (show isBlank ':' = false by decide),
    String.ofList_toList]

theorem readScalar_digits (c : UInt64) {rest : List Char} (hrest : EndsNumber rest) :
    Json.readScalar (Decimal.digits c.toNat ++ rest) = .ok (.number (.natural c), rest) := by
  have hnumber := number_digits c hrest
  obtain ⟨d, ds, hds, hdigit⟩ := (wholePart_digits c.toNat).starts
  rw [hds, List.cons_append] at hnumber ⊢
  unfold Json.readScalar
  split
  case h_6 heq =>
    cases heq
    rw [if_pos (.inr hdigit), hnumber]
    rfl
  all_goals
    next heq =>
      cases heq
      try exact absurd hdigit (by decide)

section Parsing

variable (outer : List Json.Unfinished) (name : String)

theorem readOpen_object (rest : List Char) :
    Json.readOpen outer ('\x7b' :: (Json.stringChars name ++ ':' :: rest)) =
      Json.readOpen (.object [] name :: outer) rest := by
  have hopen := skipBlanks_cons (c := '\x7b') (by decide) (Json.stringChars name ++ ':' :: rest)
  have hname := readName_stringChars name rest
  have hquote : skipBlanks (Json.stringChars name ++ ':' :: rest) =
      '"' :: (name.toList.flatMap Json.escapeChar ++ '"' :: ':' :: rest) := by
    rw [stringChars_append, skipBlanks_cons (by decide)]
  rw [Json.readOpen.eq_def outer]
  grind

theorem readOpen_digits (c : UInt64) {rest : List Char} (hrest : EndsNumber rest) :
    Json.readOpen outer (Decimal.digits c.toNat ++ rest) =
      Json.readClose outer (.number (.natural c)) rest := by
  have hstarts : StartsScalar (Decimal.digits c.toNat ++ rest) :=
    startsScalar_numberChars (.natural c) rest
  have hblanks := hstarts.startsValue.skipBlanks_eq
  have hread := readScalar_digits c hrest
  obtain ⟨d, t, hd, -, -, harray, hobject⟩ := hstarts
  rw [Json.readOpen.eq_def outer]
  grind

theorem readClose_object_end (members : List (String × Json)) (v : Json) (rest : List Char) :
    Json.readClose (.object members name :: outer) v ('\x7d' :: rest) =
      Json.readClose outer (.object (Json.putMember members name v)) rest := by
  have hclose := skipBlanks_cons (c := '\x7d') (by decide) rest
  grind [Json.readClose]

end Parsing

/-- An object with an integer as its one member is parsed as it was written. -/
theorem ofText_compact_integer (name : String) (c : UInt64) :
    Json.ofText (Json.object [(name, .number (.natural c))]).compact =
      .ok (.object [(name, .number (.natural c))]) := by
  have hchars : (Json.object [(name, .number (.natural c))]).chars =
      '\x7b' :: (Json.stringChars name ++ ':' :: (Decimal.digits c.toNat ++ ['\x7d'])) := by
    simp [Json.chars, JsonNumber.chars, Json.membersChars]
  have hends : EndsNumber ['\x7d'] := by
    rintro _ _ ⟨⟩
    decide
  simp only [Json.ofText, Json.compact, String.toList_ofList, hchars, readOpen_object,
    readOpen_digits _ c hends, readClose_object_end, Json.readClose]
  rfl

/-- The writer and the readers of this library. -/
def plain : Codec TextPlace ConfigError ValuePlace ConfigError where
  texts := textFormat
  trees := valueFormat
  openText text := ⟨false, text.toList⟩
  closeText := endText
  openTree := .value
  print := Json.compact
  parse text := (Json.ofText text).mapError .text
  toTree := toJson
  toText config := config.toJson.compact
  readText := ofText
  readTree := ofJson

theorem plain_documented : plain.Documented where
  toTree _ := rfl
  toText _ := rfl
  readText text config := by
    have hreads : ∀ p, textFormat.readStruct (text.toList.length + 1) ⟨false, text.toList⟩ =
        .ok (config, p) ↔ textFormat.Reads ⟨false, text.toList⟩ config p :=
      fun p => textFormat_shrinks.readStruct_eq_ok_iff (Nat.lt_succ_self _)
    show ofChars text.toList = _ ↔ _
    constructor
    · intro h
      unfold ofChars at h
      split at h
      · cases h
      · next read p hread =>
        obtain ⟨⟨⟩, hend, rfl⟩ := map_eq_ok_iff.mp h
        exact ⟨p, (hreads p).mp hread, hend⟩
    · rintro ⟨p, hp, hend⟩
      have hend' : endText p = .ok () := hend
      simp only [ofChars, (hreads p).mpr hp, hend']
      rfl
  readTree v config _ := by
    have hreads : ∀ q, valueFormat.readStruct (memberCount v + 1) (.value v) = .ok (config, q) ↔
        valueFormat.Reads (.value v) config q :=
      fun q => valueFormat_shrinks.readStruct_eq_ok_iff (Nat.lt_succ_self _)
    show (valueFormat.readStruct (memberCount v + 1) (.value v)).map Prod.fst = _ ↔ _
    rw [map_eq_ok_iff]
    constructor
    · rintro ⟨⟨_, q⟩, hread, rfl⟩
      exact ⟨q, (hreads q).mp hread⟩
    · rintro ⟨q, hq⟩
      exact ⟨_, (hreads q).mpr hq, rfl⟩
  texts := by
    refine ⟨TextPlace.Holds, textFormat_presents, fun v _ => ?_, ?_⟩
    · exact String.toList_ofList
    · rintro p (h : p.rest = [])
      show endText p = _
      rw [endText, h]
      rfl
  trees := ⟨ValuePlace.Holds, valueFormat_presents, fun _ _ => rfl⟩
  parse name c := by
    have hparse := ofText_compact_integer name c
    show (Json.ofText (Json.compact _)).mapError ConfigError.text = _
    rw [hparse]
    rfl

/-- An object with a capacity behind another member, in whose value the name of the capacity
occurs again. -/
def crowdedObject : Json :=
  .object [("nodes", .array [.null, .object [(memberName, .bool true)], .array [.array []]]),
    (memberName, .number (.natural 18446744073709551615))]

/-- The capacity is found beside the other member, whatever is in that. -/
theorem readers_agree_crowdedObject :
    plain.Documented ∧ crowdedObject.DistinctNames ∧
      ofJson crowdedObject = .ok ⟨18446744073709551615⟩ ∧
        ofText crowdedObject.compact = .ok ⟨18446744073709551615⟩ := by
  have hnames : crowdedObject.DistinctNames := by
    show (["nodes", memberName] : List String).Nodup
    decide
  have hmember : Describes crowdedObject ⟨18446744073709551615⟩ :=
    .member (List.mem_cons_of_mem _ List.mem_cons_self)
  have hread := (readers_agree plain_documented).2 crowdedObject hnames ⟨18446744073709551615⟩
  exact ⟨plain_documented, hnames, hread.1.mpr hmember, hread.2.mpr hmember⟩

end RingConfig

end LockFreeRings

import LockFreeRings.Proofs.Spsc.Ledger
set_option autoImplicit false

/-!
# What dealings explain

Dealings explain what happened to a list when they agree with the books, and the ledger that
they lead to holds what the list holds by then (`Explains`).  What code that does not reach a
handle leaves as it is belongs to it, since an element that is built in a slot is published
after other code ran, and the element at the front is read after other code ran.
-/

namespace LockFreeRings.Spsc

variable {k : Nat} {ω : Type}

/-- The entry of a log event. -/
def Event.entry? : Event k ω → Option LogEntry
  | .logged entry => some entry
  | _ => none

/-- The element that an event ended. -/
def Event.ended? : Event k ω → Option (Element k ω)
  | .ended v => some v
  | _ => none

/-- A list within its bound, with one place more than can be filled. -/
structure Fifo.Sized (bound : Nat) (f : Fifo k ω) : Prop where
  queue_le : f.queue.length ≤ bound
  length_eq : f.queue.length + f.vacant.length = bound + 1

namespace Fifo.Sized

variable {bound : Nat} {f : Fifo k ω}

theorem vacant_ne_nil (hs : f.Sized bound) : f.vacant ≠ [] := by
  intro hnil
  have hle := hs.queue_le
  have hlength := hs.length_eq
  rw [hnil, List.length_nil] at hlength
  omega

/-- Changes of elements keep the size. -/
theorem of_length_eq {f' : Fifo k ω} (hs : f.Sized bound)
    (hqueue : f'.queue.length = f.queue.length) (hvacant : f'.vacant.length = f.vacant.length) :
    f'.Sized bound := by
  constructor
  · rw [hqueue]; exact hs.queue_le
  · rw [hqueue, hvacant]; exact hs.length_eq

theorem append (hs : f.Sized bound) {vs : List (Element k ω)}
    (hle : f.queue.length + vs.length ≤ bound) : (f.append vs).Sized bound := by
  have hlength := hs.length_eq
  constructor <;> simp only [Fifo.append, List.length_append, List.length_drop] <;> omega

theorem remove (hs : f.Sized bound) {count : Nat} (hle : count ≤ f.queue.length) :
    (f.remove count).Sized bound := by
  have hlength := hs.length_eq
  have hqueue := hs.queue_le
  constructor <;>
    simp only [Fifo.remove, List.length_drop, List.length_append, List.length_take] <;> omega

end Fifo.Sized

theorem Fifo.eq_append_of_within {bound : Nat} {f f' : Fifo k ω} {vs : List (Element k ω)}
    (h : f.appendWithin bound vs = some f') :
    f.queue.length + vs.length ≤ bound ∧ f' = f.append vs := by
  unfold Fifo.appendWithin at h
  split at h
  · next hle => exact ⟨hle, (Option.some.inj h).symm⟩
  · cases h

/-- The same is logged, ended and copied, the copies maybe at other times. -/
structure SameWork (flat flat' : List (Event k ω)) : Prop where
  logs : flat.filterMap Event.entry? = flat'.filterMap Event.entry?
  ended : flat.filterMap Event.ended? = flat'.filterMap Event.ended?
  copied : (flat.filterMap Event.copied?).Perm (flat'.filterMap Event.copied?)

namespace SameWork

theorem refl (flat : List (Event k ω)) : SameWork flat flat := ⟨rfl, rfl, .refl _⟩

theorem append {flat flat' more more' : List (Event k ω)} (h : SameWork flat flat')
    (h' : SameWork more more') : SameWork (flat ++ more) (flat' ++ more') where
  logs := by rw [List.filterMap_append, h.logs, h'.logs, List.filterMap_append]
  ended := by rw [List.filterMap_append, h.ended, h'.ended, List.filterMap_append]
  copied := by
    rw [List.filterMap_append, List.filterMap_append]
    exact h.copied.append h'.copied

/-- A copy that is told before what follows it or behind. -/
theorem copied_cons {flat inner more : List (Event k ω)} (h : SameWork flat (inner ++ more))
    (v : Element k ω) : SameWork (.copied v :: flat) (inner ++ .copied v :: more) where
  logs := by
    rw [List.filterMap_append, List.filterMap_cons_none rfl, List.filterMap_cons_none rfl,
      ← List.filterMap_append]
    exact h.logs
  ended := by
    rw [List.filterMap_append, List.filterMap_cons_none rfl, List.filterMap_cons_none rfl,
      ← List.filterMap_append]
    exact h.ended
  copied := by
    have hcopied := h.copied
    rw [List.filterMap_append] at hcopied ⊢
    exact (hcopied.cons v).trans List.perm_middle.symm

end SameWork

/-- What happened between two states of a list is what the dealings say; `reading` has the
dealings and the entries that are left in the iterators, and `flat` the events. -/
structure Explains (bound : Nat) (watched : Bool) (reach : Reach) (f f' : Fifo k ω)
    (reading : Reading k ω) (iterators : Iterators k ω) (flat : List (Event k ω)) : Prop where
  sized : f.Sized bound → f'.Sized bound
  vacant : reach.producer = false → f.vacant <+: f'.vacant
  queue : reach.consumer = false → f.queue <+: f'.queue
  iterators : reading.2 = iterators
  logs : flat.filterMap Event.entry? = []
  copied : watched →
    (flat.filterMap Event.copied?).Perm (reading.1.filterMap Dealing.copied?)
  books : Dealing.unfilled ∉ reading.1 → ∀ l : Ledger k ω, l.values = f.queue →
    l.AllAgree reading.1 ∧ (l.after reading.1).values = f'.queue ∧
      ∃ vs, (l.after reading.1).ended = l.ended ++ vs ∧
        flat.filterMap Event.ended? = if watched then vs else []

namespace Explains

variable {bound : Nat} {watched : Bool} {reach : Reach} {f f' f'' : Fifo k ω}
  {reading : Reading k ω} {next : Iterators k ω → Reading k ω}
  {iterators iterators' : Iterators k ω} {flat flat' : List (Event k ω)}

theorem refl (reach : Reach) (f : Fifo k ω) (iterators : Iterators k ω) :
    Explains bound watched reach f f ([], iterators) iterators [] where
  sized := id
  vacant _ := List.prefix_rfl
  queue _ := List.prefix_rfl
  iterators := rfl
  logs := rfl
  copied _ := .refl _
  books _ l hl := ⟨trivial, hl, [], (List.append_nil _).symm, by simp⟩

theorem trans (h : Explains bound watched reach f f' reading iterators flat)
    (h' : Explains bound watched reach f' f'' (next iterators) iterators' flat') :
    Explains bound watched reach f f'' (reading.andThen next) iterators' (flat ++ flat') where
  sized hs := h'.sized (h.sized hs)
  vacant hp := (h.vacant hp).trans (h'.vacant hp)
  queue hc := (h.queue hc).trans (h'.queue hc)
  iterators := by rw [Reading.andThen, h.iterators, h'.iterators]
  logs := by rw [List.filterMap_append, h.logs, h'.logs, List.append_nil]
  copied hwatched := by
    rw [Reading.andThen, h.iterators, List.filterMap_append, List.filterMap_append]
    exact (h.copied hwatched).append (h'.copied hwatched)
  books hfilled l hl := by
    rw [Reading.andThen, h.iterators, List.mem_append, not_or] at hfilled
    obtain ⟨hagree, hvalues, vs, hended, hflat⟩ := h.books hfilled.1 l hl
    obtain ⟨hagree', hvalues', vs', hended', hflat'⟩ := h'.books hfilled.2 _ hvalues
    simp only [Reading.andThen, h.iterators, Ledger.after_append]
    refine ⟨Ledger.allAgree_append.mpr ⟨hagree, hagree'⟩, hvalues', vs ++ vs', ?_, ?_⟩
    · rw [hended', hended, List.append_assoc]
    · rw [List.filterMap_append, hflat, hflat']
      cases watched <;> rfl

/-- More dealings of the same call. -/
theorem append {ds ds' : List (Dealing k ω)}
    (h : Explains bound watched reach f f' (ds, iterators) iterators flat)
    (h' : Explains bound watched reach f' f'' (ds', iterators) iterators flat') :
    Explains bound watched reach f f'' (ds ++ ds', iterators) iterators (flat ++ flat') := by
  show Explains bound watched reach f f''
    (Reading.andThen (ds, iterators) fun iterators => (ds', iterators)) iterators (flat ++ flat')
  exact h.trans h'

/-- The dealings of a call after those of what ran inside it. -/
theorem finish {ds : List (Dealing k ω)}
    (h : Explains bound watched reach f f' reading iterators flat)
    (h' : Explains bound watched reach f' f'' (ds, iterators) iterators []) :
    Explains bound watched reach f f'' (reading.andThen fun iterators => (ds, iterators))
      iterators flat := by
  rw [← List.append_nil flat]
  exact h.trans h'

/-- Events that come to the same are explained by the same dealings. -/
theorem of_same (h : Explains bound watched reach f f' reading iterators flat)
    (hsame : SameWork flat' flat) :
    Explains bound watched reach f f' reading iterators flat' where
  sized := h.sized
  vacant := h.vacant
  queue := h.queue
  iterators := h.iterators
  logs := hsame.logs.trans h.logs
  copied hwatched := hsame.copied.trans (h.copied hwatched)
  books := by
    rw [hsame.ended]
    exact h.books

/-- An event that neither logs nor ends nor copies anything makes no difference. -/
theorem also (h : Explains bound watched reach f f' reading iterators flat) {event : Event k ω}
    (hlogs : event.entry? = none) (hended : event.ended? = none) (hcopied : event.copied? = none) :
    Explains bound watched reach f f' reading iterators (flat ++ [event]) := by
  refine h.of_same ⟨?_, ?_, ?_⟩
  · simp [hlogs]
  · simp [hended]
  · simp [hcopied]

/-- Code that reaches more handles can do the same. -/
theorem mono {reach' : Reach} (h : Explains bound watched reach' f f' reading iterators flat)
    (hp : reach.producer = false → reach'.producer = false)
    (hc : reach.consumer = false → reach'.consumer = false) :
    Explains bound watched reach f f' reading iterators flat where
  sized := h.sized
  vacant hproducer := h.vacant (hp hproducer)
  queue hconsumer := h.queue (hc hconsumer)
  iterators := h.iterators
  logs := h.logs
  copied := h.copied
  books := h.books

/-- What code did that could do without the producer. -/
theorem without_producer
    (h : Explains bound watched { reach with producer := false } f f' reading iterators flat) :
    Explains bound watched reach f f' reading iterators flat :=
  h.mono (fun _ => rfl) id

theorem without_consumer
    (h : Explains bound watched { reach with consumer := false } f f' reading iterators flat) :
    Explains bound watched reach f f' reading iterators flat :=
  h.mono id fun _ => rfl

/-- Code that reaches no handle leaves as many elements in the queue. -/
theorem length_queue_eq (h : Explains bound watched reach f f' reading iterators flat)
    (hp : reach.producer = false) (hc : reach.consumer = false) (hs : f.Sized bound) :
    f'.queue.length = f.queue.length := by
  have hqueue := (h.queue hc).length_le
  have hvacant := (h.vacant hp).length_le
  have hlength := hs.length_eq
  have hlength' := (h.sized hs).length_eq
  omega

/-! ### The producer's own work -/

/-- Stores in vacant places are no dealings. -/
theorem of_queue_eq (hreach : reach.producer = true)
    (h : Explains bound watched reach f f' reading iterators flat) (hqueue : f''.queue = f'.queue)
    (hvacant : f''.vacant.length = f'.vacant.length) :
    Explains bound watched reach f f'' reading iterators flat where
  sized hs := (h.sized hs).of_length_eq (by rw [hqueue]) hvacant
  vacant hp := by rw [hreach] at hp; cases hp
  queue hc := by rw [hqueue]; exact h.queue hc
  iterators := h.iterators
  logs := h.logs
  copied := h.copied
  books := by rw [hqueue]; exact h.books

/-- Stores that come before are no dealings either. -/
theorem from_queue_eq (hreach : reach.producer = true)
    (h : Explains bound watched reach f' f'' reading iterators flat) (hqueue : f'.queue = f.queue)
    (hvacant : f'.vacant.length = f.vacant.length) :
    Explains bound watched reach f f'' reading iterators flat where
  sized hs := h.sized (hs.of_length_eq (by rw [hqueue]) hvacant)
  vacant hp := by rw [hreach] at hp; cases hp
  queue hc := by rw [← hqueue]; exact h.queue hc
  iterators := h.iterators
  logs := h.logs
  copied := h.copied
  books := by rw [← hqueue]; exact h.books

theorem put (hreach : reach.producer = true)
    (h : Explains bound watched reach f f' reading iterators flat) (i : Nat) (v : Element k ω) :
    Explains bound watched reach f (f'.put i v) reading iterators flat :=
  h.of_queue_eq hreach rfl (List.length_set ..)

theorem refused (reach : Reach) (f : Fifo k ω) (v : Element k ω) (iterators : Iterators k ω) :
    Explains bound watched reach f f ([.refused v v], iterators) iterators [] where
  sized := id
  vacant _ := List.prefix_rfl
  queue _ := List.prefix_rfl
  iterators := rfl
  logs := rfl
  copied _ := .refl _
  books _ l hl := ⟨⟨rfl, trivial⟩, hl, [], by
    simp [Ledger.after, Ledger.record, Ledger.comeAndGo, Ledger.ended], by simp⟩

/-- Copies, of which the events tell in a watched session. -/
theorem copying (reach : Reach) (f : Fifo k ω) (vs : List (Element k ω))
    (iterators : Iterators k ω) :
    Explains bound watched reach f f (vs.map .copied, iterators) iterators
      (if watched then vs.map .copied else []) where
  sized := id
  vacant _ := List.prefix_rfl
  queue _ := List.prefix_rfl
  iterators := rfl
  logs := by
    cases watched
    · rfl
    · simp [Event.entry?]
  copied hwatched := by
    rw [hwatched, if_pos rfl, List.filterMap_map, List.filterMap_map]
    exact .refl _
  books _ l hl := by
    obtain ⟨hagree, hafter⟩ := l.allAgree_copied vs
    rw [hafter]
    refine ⟨hagree, hl, [], (List.append_nil _).symm, ?_⟩
    cases watched <;> simp [Event.ended?]

theorem stranded (reach : Reach) (f : Fifo k ω) (vs : List (Element k ω))
    (iterators : Iterators k ω) :
    Explains bound watched reach f f (vs.map .stranded, iterators) iterators [] where
  sized := id
  vacant _ := List.prefix_rfl
  queue _ := List.prefix_rfl
  iterators := rfl
  logs := rfl
  copied _ := by simp [Dealing.copied?]
  books _ l hl := by
    obtain ⟨hagree, hvalues, hended⟩ := l.allAgree_stranded vs
    exact ⟨hagree, hvalues.trans hl, [], by rw [hended, List.append_nil], by simp⟩

theorem published (hreach : reach.producer = true) (f : Fifo k ω) (vs : List (Element k ω))
    (hle : f.queue.length + vs.length ≤ bound) (iterators : Iterators k ω) :
    Explains bound watched reach f (f.append vs) (vs.map .published, iterators) iterators [] where
  sized hs := hs.append hle
  vacant hp := by rw [hreach] at hp; cases hp
  queue _ := List.prefix_append _ _
  iterators := rfl
  logs := rfl
  copied _ := by simp [Dealing.copied?]
  books _ l hl := by
    obtain ⟨hagree, hvalues, hended⟩ := l.allAgree_published vs
    exact ⟨hagree, by rw [hvalues, hl, Fifo.append], [], by rw [hended, List.append_nil], by simp⟩

/-- What is published from a slot that was not filled is not known. -/
theorem unfilled (hreach : reach.producer = true) (f : Fifo k ω) (vs : List (Element k ω))
    (hle : f.queue.length + vs.length ≤ bound) (iterators : Iterators k ω) :
    Explains bound watched reach f (f.append vs) ([.unfilled], iterators) iterators [] where
  sized hs := hs.append hle
  vacant hp := by rw [hreach] at hp; cases hp
  queue _ := List.prefix_append _ _
  iterators := rfl
  logs := rfl
  copied _ := .refl _
  books hfilled := absurd (List.mem_singleton_self _) hfilled

/-! ### The consumer's own work -/

theorem returned (hreach : reach.consumer = true) (f : Fifo k ω) {vs : List (Element k ω)}
    (hvs : vs <+: f.queue) (iterators : Iterators k ω) :
    Explains bound watched reach f (f.remove vs.length) (vs.map .returned, iterators) iterators
      [] where
  sized hs := hs.remove hvs.length_le
  vacant _ := List.prefix_append _ _
  queue hc := by rw [hreach] at hc; cases hc
  iterators := rfl
  logs := rfl
  copied _ := by simp [Dealing.copied?]
  books _ l hl := by
    obtain ⟨hagree, hvalues, hended⟩ := l.allAgree_returned (hl ▸ hvs)
    exact ⟨hagree, by rw [hvalues, hl, Fifo.remove], [], by rw [hended, List.append_nil], by simp⟩

theorem edited (hreach : reach.consumer = true) (hne : f.queue ≠ []) (v : Element k ω)
    (iterators : Iterators k ω) :
    Explains bound watched reach f (f.edit v) ([.edited v], iterators) iterators [] where
  sized hs := hs.of_length_eq (List.length_set ..) rfl
  vacant _ := List.prefix_rfl
  queue hc := by rw [hreach] at hc; cases hc
  iterators := rfl
  logs := rfl
  copied _ := .refl _
  books _ l hl := by
    refine ⟨⟨?_, trivial⟩, ?_, [], (List.append_nil _).symm, by simp⟩
    · rintro hnil
      rw [Ledger.values, hnil] at hl
      exact hne hl.symm
    · exact (l.values_edited v).trans (by rw [hl, Fifo.edit])

theorem released (hreach : reach.consumer = true) {v : Element k ω} {rest : List (Element k ω)}
    (hv : f.queue = v :: rest) (iterators : Iterators k ω) :
    Explains bound watched reach f (f.remove 1) ([.released], iterators) iterators
      (if watched then [.ended v] else []) where
  sized hs := hs.remove (by rw [hv]; exact Nat.le_add_left 1 _)
  vacant _ := List.prefix_append _ _
  queue hc := by rw [hreach] at hc; cases hc
  iterators := rfl
  logs := by cases watched <;> rfl
  copied _ := by cases watched <;> exact .refl _
  books _ l hl := by
    have hfront : l.values.head? = some v := by
      rw [hl, hv]
      rfl
    obtain ⟨hagree, hended⟩ := Ledger.agrees_released hfront
    refine ⟨⟨hagree, trivial⟩, ?_, [v], hended, ?_⟩
    · exact (l.values_takeFront .ended).trans (by rw [hl, Fifo.remove, hv]; rfl)
    · cases watched <;> rfl

/-- The element whose ending failed is where it was. -/
theorem endFailed (reach : Reach) {v : Element k ω} {rest : List (Element k ω)}
    (hv : f.queue = v :: rest) (iterators : Iterators k ω) :
    Explains bound watched reach f f ([.endFailed], iterators) iterators
      (if watched then [.ended v] else []) where
  sized := id
  vacant _ := List.prefix_rfl
  queue _ := List.prefix_rfl
  iterators := rfl
  logs := by cases watched <;> rfl
  copied _ := by cases watched <;> exact .refl _
  books _ l hl := by
    have hfront : l.values.head? = some v := by
      rw [hl, hv]
      rfl
    obtain ⟨hagree, hended⟩ := Ledger.agrees_endFailed hfront
    refine ⟨⟨hagree, trivial⟩, ?_, [v], hended, ?_⟩
    · exact (congrArg (List.map Entry.value) (l.queue_markFront .ended)).trans hl
    · cases watched <;> rfl

end Explains

/-! ## What a slot holds -/

/-- What a slot holds after the actions on it. -/
def slotAfter : List (WriteAction k ω) → Element k ω → Element k ω
  | [], v => v
  | .build v :: actions, _ => slotAfter actions v
  | .setWords words :: actions, v => slotAfter actions (setAll v words)
  | .nested _ :: actions, v => slotAfter actions v

/-- What the slot holds, if anything was built in it. -/
theorem builtIn_snd (blank : Element k ω) (actions : List (WriteAction k ω))
    (v? : Option (Element k ω)) :
    (builtIn blank actions v?).2 =
      if actions.any WriteAction.builds then some (slotAfter actions (v?.getD blank)) else v? := by
  have hbuilt : ∀ (actions : List (WriteAction k ω)) (v : Element k ω),
      actions.any WriteAction.builds = false → slotAfter actions v = v := by
    intro actions v h
    induction actions with
    | nil => rfl
    | cons action actions ih =>
        cases action with
        | build v | setWords words => simp [WriteAction.builds] at h
        | nested c => exact ih h
  induction actions generalizing v? with
  | nil => rfl
  | cons action actions ih =>
      cases action with
      | build v =>
          refine (ih (some v)).trans ?_
          split
          · rfl
          · next h => exact congrArg some (hbuilt actions v (Bool.eq_false_of_not_eq_true h)).symm
      | setWords words =>
          refine (ih (some (setAll (v?.getD blank) words))).trans ?_
          split
          · rfl
          · next h => exact congrArg some (hbuilt actions _ (Bool.eq_false_of_not_eq_true h)).symm
      | nested c => exact ih v?

/-- A word that the actions store, or that was the same before, is the same after them. -/
theorem getElem_slotAfter (actions : List (WriteAction k ω)) (u u' : Element k ω) (j : Fin k)
    (h : getElem u' j.val j.isLt = getElem u j.val j.isLt ∨
      actions.any (WriteAction.stores j) = true) :
    getElem (slotAfter actions u') j.val j.isLt = getElem (slotAfter actions u) j.val j.isLt := by
  induction actions generalizing u u' with
  | nil => simpa [slotAfter] using h
  | cons action actions ih =>
      cases action with
      | build v => rfl
      | setWords words =>
          refine ih _ _ ?_
          rw [List.any_cons, Bool.or_eq_true, ← or_assoc] at h
          exact h.imp_left (getElem_foldl_set words u u' j)
      | nested c => exact ih u u' (by simpa [WriteAction.stores] using h)

/-- A slot that was filled does not show what it held before. -/
theorem slotAfter_eq {actions : List (WriteAction k ω)} (h : fillsSlot actions = true)
    (u u' : Element k ω) : slotAfter actions u' = slotAfter actions u := by
  rw [fillsSlot, Bool.and_eq_true, decide_eq_true_eq] at h
  exact Vector.ext fun j hj => getElem_slotAfter actions u u' ⟨j, hj⟩ (.inr (h.2 ⟨j, hj⟩))

end LockFreeRings.Spsc

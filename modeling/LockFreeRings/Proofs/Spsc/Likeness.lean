import LockFreeRings.Proofs.Spsc.Quiet
set_option autoImplicit false

/-!
# What vacant places hold makes no difference

Two lists are alike when they hold the same queue and as many vacant places, whatever is in
those.  A command that runs on both gives the same reply and the same events, and leaves them
alike, as long as it publishes no slot that it has not filled itself (`Command.initialises`).

While a slot is held for writing more is needed: what was built in the slot must still be the
same on both sides when it is published.  `Shared` says how much of the first vacant place is
the same so far, and code that does not reach the producer leaves that as it is.

`Runner.Alike` is what the induction on the depth of nesting carries; it is symmetric and
transitive.
-/

namespace LockFreeRings.Spsc

variable {k : Nat} {ω : Type}

/-! ## Commands that fill what they publish -/

/-- Whether an action builds something in the slot. -/
def WriteAction.builds : WriteAction k ω → Bool
  | .nested _ => false
  | _ => true

/-- Whether an action stores a word of the slot. -/
def WriteAction.stores (j : Fin k) : WriteAction k ω → Bool
  | .build _ => true
  | .setWords words => words.any fun word => word.1 = j
  | .nested _ => false

/-- Whether the actions on a slot store every word of it. -/
def fillsSlot (actions : List (WriteAction k ω)) : Bool :=
  actions.any WriteAction.builds && decide (∀ j, actions.any (WriteAction.stores j) = true)

mutual

/-- Whether a command fills the slots that it publishes, and those inside it do. -/
def Command.initialises : Command k ω → Bool
  | .writeSlot actions .commit => fillsSlot actions
  | .readSlot actions _ => readsInitialise actions
  | _ => true

/-- Whether the commands among the actions on a slot held for reading do. -/
def readsInitialise : List (ReadAction k ω) → Bool
  | [] => true
  | .nested c :: actions => c.initialises && readsInitialise actions
  | _ :: actions => readsInitialise actions

end

/-! ## Lists that are alike -/

/-- What is the same on two sides about the next slot to write. -/
structure Shared (k : Nat) where
  /-- something was built in it -/
  built : Prop
  /-- these words are the same -/
  words : Fin k → Prop

/-- Nothing is known of the next slot to write. -/
def Shared.nothing : Shared k := ⟨False, fun _ => False⟩

/-- No command can tell the two sides apart, but for what is in vacant places. -/
structure Alike (shared : Shared k) (scene : Scene k ω) (f : Fifo k ω) (scene' : Scene k ω)
    (f' : Fifo k ω) : Prop where
  iterators : scene'.iterators = scene.iterators
  built : shared.built → scene.built = true ∧ scene'.built = true
  queue : f'.queue = f.queue
  vacant : f'.vacant.length = f.vacant.length
  first : ∀ v v', f.vacant[0]? = some v → f'.vacant[0]? = some v' →
    ∀ j, shared.words j → v'[j] = v[j]

namespace Alike

variable {shared : Shared k} {scene scene' scene'' : Scene k ω} {f f' f'' : Fifo k ω}

theorem nothing (hiterators : scene'.iterators = scene.iterators) (hqueue : f'.queue = f.queue)
    (hvacant : f'.vacant.length = f.vacant.length) : Alike .nothing scene f scene' f' :=
  ⟨hiterators, False.elim, hqueue, hvacant, fun _ _ _ _ _ => False.elim⟩

theorem weaken (h : Alike shared scene f scene' f') : Alike .nothing scene f scene' f' :=
  .nothing h.iterators h.queue h.vacant

theorem refl (scene : Scene k ω) (f : Fifo k ω) : Alike .nothing scene f scene f :=
  .nothing rfl rfl rfl

theorem symm (h : Alike shared scene f scene' f') : Alike shared scene' f' scene f where
  iterators := h.iterators.symm
  built hb := (h.built hb).symm
  queue := h.queue.symm
  vacant := h.vacant.symm
  first v v' hv hv' j hj := (h.first v' v hv' hv j hj).symm

theorem trans (h : Alike shared scene f scene' f') (h' : Alike shared scene' f' scene'' f'') :
    Alike shared scene f scene'' f'' where
  iterators := h'.iterators.trans h.iterators
  built hb := ⟨(h.built hb).1, (h'.built hb).2⟩
  queue := h'.queue.trans h.queue
  vacant := h'.vacant.trans h.vacant
  first v v'' hv hv'' j hj := by
    obtain ⟨hlt, -⟩ := List.getElem?_eq_some_iff.mp hv
    have hget := List.getElem?_eq_getElem (h.vacant.symm ▸ hlt)
    exact (h'.first _ v'' hget hv'' j hj).trans (h.first v _ hv hget j hj)

theorem report_eq (h : Alike shared scene f scene' f') (bound : Nat) (reach : Reach)
    (reply : Reply k ω) (events : List (Event k ω)) :
    Fifo.report bound reach reply events f' = Fifo.report bound reach reply events f := by
  rw [Fifo.report, Fifo.report, h.queue]

theorem left_eq (h : Alike shared scene f scene' f') (iterator : Nat) :
    scene'.left iterator = scene.left iterator := by
  rw [Scene.left, Scene.left, h.iterators]

/-- Only the iterators of the scenes are told apart. -/
theorem rescene {t t' : Scene k ω} (h : Alike .nothing scene f scene' f')
    (hiterators : t'.iterators = t.iterators) : Alike .nothing t f t' f' :=
  .nothing hiterators h.queue h.vacant

/-! ### Changes on both sides -/

/-- An iterator is left with fewer entries. -/
theorem advance (h : Alike shared scene f scene' f') (iterator : Nat)
    (rest : List (IteratorEntry k ω)) :
    Alike shared { scene with iterators := scene.iterators.set iterator rest } f
      { scene' with iterators := scene'.iterators.set iterator rest } f' where
  iterators := by rw [h.iterators]
  built := h.built
  queue := h.queue
  vacant := h.vacant
  first := h.first

theorem remove (h : Alike shared scene f scene' f') (count : Nat) :
    Alike shared scene (f.remove count) scene' (f'.remove count) where
  iterators := h.iterators
  built := h.built
  queue := by rw [Fifo.remove, Fifo.remove, h.queue]
  vacant := by
    rw [Fifo.remove, Fifo.remove, List.length_append, List.length_append, h.vacant, h.queue]
  first v v' hv hv' j hj := by
    rw [Fifo.remove] at hv hv'
    simp only at hv hv'
    rcases Nat.eq_zero_or_pos f.vacant.length with hzero | hpos
    -- the first place is one that was vacated now
    · rw [List.eq_nil_of_length_eq_zero hzero, List.nil_append] at hv
      rw [List.eq_nil_of_length_eq_zero (h.vacant.trans hzero), List.nil_append, h.queue, hv] at hv'
      cases hv'
      rfl
    · rw [List.getElem?_append_left hpos] at hv
      rw [List.getElem?_append_left (h.vacant.symm ▸ hpos)] at hv'
      exact h.first v v' hv hv' j hj

theorem edit (h : Alike shared scene f scene' f') (v : Element k ω) :
    Alike shared scene (f.edit v) scene' (f'.edit v) where
  iterators := h.iterators
  built := h.built
  queue := by rw [Fifo.edit, Fifo.edit, h.queue]
  vacant := h.vacant
  first := h.first

theorem append (h : Alike shared scene f scene' f') (vs : List (Element k ω)) :
    Alike .nothing scene (f.append vs) scene' (f'.append vs) := by
  refine .nothing h.iterators ?_ ?_
  · rw [Fifo.append, Fifo.append, h.queue]
  · rw [Fifo.append, Fifo.append, List.length_drop, List.length_drop, h.vacant]

theorem put (h : Alike shared scene f scene' f') (i : Nat) (v : Element k ω) :
    Alike .nothing scene (f.put i v) scene' (f'.put i v) := by
  refine .nothing h.iterators h.queue ?_
  rw [Fifo.put, Fifo.put, List.length_set, List.length_set, h.vacant]

/-- An element is built in the slot. -/
theorem build (h : Alike shared scene f scene' f') (v : Element k ω) :
    Alike ⟨True, fun _ => True⟩ { scene with built := true } (f.put 0 v)
      { scene' with built := true } (f'.put 0 v) where
  iterators := h.iterators
  built _ := ⟨rfl, rfl⟩
  queue := h.queue
  vacant := (h.put 0 v).vacant
  first u u' hu hu' j _ := by
    rw [Fifo.put] at hu hu'
    simp only at hu hu'
    obtain ⟨hlt, -⟩ := List.getElem?_eq_some_iff.mp hu
    obtain ⟨hlt', -⟩ := List.getElem?_eq_some_iff.mp hu'
    rw [List.length_set] at hlt hlt'
    rw [List.getElem?_set_self hlt] at hu
    rw [List.getElem?_set_self hlt'] at hu'
    cases hu
    cases hu'
    rfl

end Alike

/-- Words that are stored in both elements are the same, and the others as before. -/
theorem getElem_foldl_set (words : List (Fin k × ω)) (v v' : Element k ω) (j : Fin k)
    (h : getElem v' j.val j.isLt = getElem v j.val j.isLt ∨
      words.any (fun word => word.1 = j) = true) :
    getElem (words.foldl (fun v word => v.set word.1 word.2 word.1.isLt) v') j.val j.isLt =
      getElem (words.foldl (fun v word => v.set word.1 word.2 word.1.isLt) v) j.val j.isLt := by
  induction words generalizing v v' with
  | nil => simpa using h
  | cons word words ih =>
      rw [List.foldl_cons, List.foldl_cons]
      refine ih _ _ ?_
      by_cases hword : word.1 = j
      · subst hword
        left
        simp
      · rw [List.any_cons, decide_eq_false hword, Bool.false_or] at h
        refine h.imp_left fun hsame => ?_
        have hne : word.1.val ≠ j.val := fun heq => hword (Fin.ext heq)
        rw [Vector.getElem_set_ne _ _ hne, Vector.getElem_set_ne _ _ hne]
        exact hsame

/-- Words of the slot are stored. -/
theorem Alike.putWords {shared : Shared k} {scene scene' : Scene k ω} {f f' : Fifo k ω}
    (h : Alike shared scene f scene' f') (words : List (Fin k × ω)) :
    Alike ⟨True, fun j => shared.words j ∨ words.any (fun word => word.1 = j) = true⟩
      { scene with built := true } (f.putWords words)
      { scene' with built := true } (f'.putWords words) where
  iterators := h.iterators
  built _ := ⟨rfl, rfl⟩
  queue := h.queue
  vacant := by rw [Fifo.putWords, Fifo.putWords, List.length_modify, List.length_modify, h.vacant]
  first u u' hu hu' j hj := by
    rw [Fifo.putWords] at hu hu'
    simp only [List.getElem?_modify_eq] at hu hu'
    obtain ⟨v, hv, rfl⟩ := Option.map_eq_some_iff.mp hu
    obtain ⟨v', hv', rfl⟩ := Option.map_eq_some_iff.mp hu'
    exact getElem_foldl_set words v v' j (hj.imp_left (h.first v v' hv hv' j))

/-! ## Runs on both sides -/

/-- Steps that come to the same go on to the same. -/
theorem rel_bind {α α' β β' : Type} {R : α → α' → Prop} {S : β → β' → Prop} {x : Option α}
    {x' : Option α'} {g : α → Option β} {g' : α' → Option β'} (h : Option.Rel R x x')
    (hnext : ∀ a a', R a a' → Option.Rel S (g a) (g' a')) :
    Option.Rel S (x >>= g) (x' >>= g') := by
  cases h with
  | none => exact .none
  | some h => exact hnext _ _ h

theorem rel_symm {α α' : Type} {R : α → α' → Prop} {S : α' → α → Prop} {x : Option α}
    {x' : Option α'} (h : Option.Rel R x x') (hsymm : ∀ a a', R a a' → S a' a) :
    Option.Rel S x' x := by
  cases h with
  | none => exact .none
  | some h => exact .some (hsymm _ _ h)

theorem rel_trans {α α' α'' : Type} {R : α → α' → Prop} {S : α' → α'' → Prop}
    {T : α → α'' → Prop} {x : Option α} {x' : Option α'} {x'' : Option α''}
    (h : Option.Rel R x x') (h' : Option.Rel S x' x'')
    (htrans : ∀ a a' a'', R a a' → S a' a'' → T a a'') : Option.Rel T x x'' := by
  cases h with
  | none =>
      cases h'
      exact .none
  | some h =>
      cases h' with
      | some h' => exact .some (htrans _ _ _ h h')

namespace Fifo

variable {run run' : Runner k ω} {shared : Shared k} {scene scene' : Scene k ω} {f f' : Fifo k ω}

/-- Two runs reply the same, and leave lists that are alike. -/
structure Ran.Alike {ρ : Type} (shared : Shared k) (a b : Ran k ω ρ) : Prop where
  result : b.result = a.result
  events : b.events = a.events
  state : Spsc.Alike shared a.scene a.fifo b.scene b.fifo

/-- On lists that are alike, these runners do the same. -/
def Runner.Alike (run run' : Runner k ω) : Prop :=
  ∀ (reach : Reach) (c : Command k ω) (shared : Shared k) (scene : Scene k ω) (f : Fifo k ω)
    (scene' : Scene k ω) (f' : Fifo k ω),
    reach.producer = false ∨ shared = .nothing ∧ c.initialises = true →
    Spsc.Alike shared scene f scene' f' →
    Option.Rel (Ran.Alike shared) (run reach c scene f) (run' reach c scene' f')

theorem Ran.Alike.symm {ρ : Type} {a b : Ran k ω ρ} (h : Ran.Alike shared a b) :
    Ran.Alike shared b a :=
  ⟨h.result.symm, h.events.symm, h.state.symm⟩

theorem Ran.Alike.trans {ρ : Type} {a b c : Ran k ω ρ} (h : Ran.Alike shared a b)
    (h' : Ran.Alike shared b c) : Ran.Alike shared a c :=
  ⟨h'.result.trans h.result, h'.events.trans h.events, h.state.trans h'.state⟩

theorem Runner.Alike.symm (h : run.Alike run') : run'.Alike run :=
  fun reach c shared scene f scene' f' hreach halike =>
    rel_symm (h reach c shared scene' f' scene f hreach halike.symm) fun _ _ => Ran.Alike.symm

theorem Runner.Alike.trans {run'' : Runner k ω} (h : run.Alike run') (h' : run'.Alike run'') :
    run.Alike run'' := by
  intro reach c shared scene f scene' f' hreach halike
  -- the second runner starts where the third does
  have hself : Spsc.Alike shared scene' f' scene' f' := halike.symm.trans halike
  exact rel_trans (h reach c shared scene f scene' f' hreach halike)
    (h' reach c shared scene' f' scene' f' hreach hself) fun _ _ _ => Ran.Alike.trans

/-- A step gives the same on both sides, and leaves lists that are alike. -/
def Same {ρ : Type} (shared : Shared k) (a b : ρ × Scene k ω × Fifo k ω) : Prop :=
  b.1 = a.1 ∧ Spsc.Alike shared a.2.1 a.2.2 b.2.1 b.2.2

/-- A callback adds the same events on both sides, with so many answers of iterators among
them, and leaves lists that are alike. -/
def WentOn (shared : Shared k) (p p' : Progress k ω) (count : Nat)
    (a b : Progress k ω × Fifo k ω) : Prop :=
  (∃ more, a.1.events = p.events ++ more ∧ b.1.events = p'.events ++ more ∧
      answers more = count) ∧
    Spsc.Alike shared a.1.scene a.2 b.1.scene b.2

theorem WentOn.events_eq {p p' : Progress k ω} {count : Nat} {a b : Progress k ω × Fifo k ω}
    (h : WentOn shared p p' count a b) (hevents : p'.events = p.events) :
    b.1.events = a.1.events := by
  obtain ⟨⟨more, hmore, hmore', -⟩, -⟩ := h
  rw [hmore, hmore', hevents]

section

variable {bound : Nat} {watched : Bool} {reach : Reach}

namespace Runner.Alike

theorem runAll (hrun : run.Alike run') (hreach : reach.producer = false)
    (commands : List (Command k ω)) (h : Spsc.Alike shared scene f scene' f') :
    Option.Rel (Same shared) (runAll bound run reach commands scene f)
      (Fifo.runAll bound run' reach commands scene' f') := by
  induction commands generalizing scene f scene' f' with
  | nil => exact .some ⟨rfl, h⟩
  | cons c cs ih =>
      unfold Fifo.runAll
      refine rel_bind (hrun reach c shared scene f scene' f' (.inl hreach) h) ?_
      rintro a b ⟨hresult, hevents, hstate⟩
      refine rel_bind (ih hstate) ?_
      rintro ⟨reports, scene₁, f₁⟩ ⟨reports', scene₂, f₂⟩ ⟨hreports, hrest⟩
      obtain rfl : reports' = reports := hreports
      refine .some ⟨?_, hrest⟩
      rw [hresult, hevents, hstate.report_eq]

theorem runBefore (hrun : run.Alike run') (hreach : reach.producer = false)
    (before : List (Command k ω)) (p p' : Progress k ω)
    (h : Spsc.Alike shared p.scene f p'.scene f') :
    Option.Rel (WentOn shared p p' 0) (runBefore bound run reach before p f)
      (Fifo.runBefore bound run' reach before p' f') := by
  unfold Fifo.runBefore
  refine rel_bind (hrun.runAll hreach before h) ?_
  rintro ⟨reports, scene₁, f₁⟩ ⟨reports', scene₂, f₂⟩ ⟨hreports, hstate⟩
  obtain rfl : reports' = reports := hreports
  cases reports' with
  | nil => exact .some ⟨⟨[], by simp, by simp, rfl⟩, hstate⟩
  | cons report reports => exact .some ⟨⟨[.ran (report :: reports)], rfl, rfl, rfl⟩, hstate⟩

/-- Asking an iterator. -/
theorem ask (hrun : run.Alike run') (hreach : reach.producer = false) (iterator : Nat)
    (p p' : Progress k ω) (h : Spsc.Alike shared p.scene f p'.scene f') :
    Option.Rel
      (fun a b => b.1 = a.1 ∧
        WentOn shared p p'
          (match a.1 with
            | .failed => 0
            | _ => 1) a.2 b.2)
      (ask bound run reach iterator p f) (Fifo.ask bound run' reach iterator p' f') := by
  unfold Fifo.ask
  rw [h.left_eq]
  cases p.scene.left iterator with
  | nil => exact .some ⟨rfl, ⟨[.exhausted], rfl, rfl, rfl⟩, h⟩
  | cons entry rest =>
      simp only
      refine rel_bind (hrun.runBefore hreach entry.before
        ⟨{ p.scene with iterators := p.scene.iterators.set iterator rest }, p.events⟩
        ⟨{ p'.scene with iterators := p'.scene.iterators.set iterator rest }, p'.events⟩
        (h.advance iterator rest)) ?_
      rintro ⟨q, g⟩ ⟨q', g'⟩ ⟨⟨more, hmore, hmore', hcount⟩, hstate⟩
      simp only at hmore hmore' hstate ⊢
      cases entry.answer with
      | item v =>
          refine .some ⟨rfl, ⟨more ++ [.pulled v], ?_, ?_, ?_⟩, hstate⟩
          · rw [hmore, List.append_assoc]
          · rw [hmore', List.append_assoc]
          · rw [answers, List.countP_append, ← answers, hcount]
            rfl
      | ended =>
          refine .some ⟨rfl, ⟨more ++ [.exhausted], ?_, ?_, ?_⟩, hstate⟩
          · rw [hmore, List.append_assoc]
          · rw [hmore', List.append_assoc]
          · rw [answers, List.countP_append, ← answers, hcount]
            rfl
      | failed => exact .some ⟨rfl, ⟨more, hmore, hmore', hcount⟩, hstate⟩

/-- The copies of a batch. -/
theorem copyAll (hrun : run.Alike run') (hreach : reach.producer = false)
    (copies : List (Copy k ω)) (drafted : List (Element k ω)) (p p' : Progress k ω)
    (hevents : p'.events = p.events) (h : Spsc.Alike .nothing p.scene f p'.scene f') :
    Option.Rel
      (fun a b => b.1 = a.1 ∧ b.2.1.events = a.2.1.events ∧
        Spsc.Alike .nothing a.2.1.scene a.2.2 b.2.1.scene b.2.2)
      (copyAll bound watched run reach copies drafted p f)
      (Fifo.copyAll bound watched run' reach copies drafted p' f') := by
  induction copies generalizing drafted p p' f f' with
  | nil => exact .some ⟨rfl, hevents, h⟩
  | cons copy copies ih =>
      obtain ⟨value, before, fails⟩ := copy
      unfold Fifo.copyAll
      refine rel_bind (hrun.runBefore hreach before p p' h) ?_
      rintro ⟨q, g⟩ ⟨q', g'⟩ hbefore
      have hq := hbefore.events_eq hevents
      have hstate := hbefore.2
      cases fails with
      | true => exact .some ⟨rfl, hq, hstate⟩
      | false =>
          have hput := hstate.put drafted.length value
          cases watched with
          | true =>
              exact ih _ ⟨q.scene, q.events ++ [.copied value]⟩
                ⟨q'.scene, q'.events ++ [.copied value]⟩
                (congrArg (fun events => events ++ [Event.copied value]) hq) hput
          | false => exact ih _ q q' hq hput

/-- What an iterator answers. -/
theorem pullAll (hrun : run.Alike run') (hreach : reach.producer = false) (iterator left : Nat)
    (drafted : List (Element k ω)) (limit : Option UInt64) (p p' : Progress k ω)
    (hevents : p'.events = p.events) (h : Spsc.Alike .nothing p.scene f p'.scene f') :
    Option.Rel
      (fun a b => b.1 = a.1 ∧ b.2.1.events = a.2.1.events ∧
        Spsc.Alike .nothing a.2.1.scene a.2.2 b.2.1.scene b.2.2)
      (pullAll bound run reach iterator left drafted limit p f)
      (Fifo.pullAll bound run' reach iterator left drafted limit p' f') := by
  induction left generalizing drafted limit p p' f f' with
  | zero => exact .some ⟨rfl, hevents, h⟩
  | succ left ih =>
      unfold Fifo.pullAll
      rw [h.queue]
      split
      · refine rel_bind (hrun.ask hreach iterator p p' h) ?_
        rintro ⟨answer, q, g⟩ ⟨answer', q', g'⟩ ⟨hanswer, hasked⟩
        obtain rfl : answer' = answer := hanswer
        have hq := hasked.events_eq hevents
        have hstate := hasked.2
        cases answer' with
        | failed | ended => exact .some ⟨rfl, hq, hstate⟩
        | item v => exact ih _ _ q q' hq (hstate.put drafted.length v)
      · exact .some ⟨rfl, hevents, h⟩

/-- The actions on a slot held for writing: what they store is the same on both sides. -/
theorem runWrites (hrun : run.Alike run') (hreach : reach.producer = false)
    (actions : List (WriteAction k ω)) (h : Spsc.Alike shared scene f scene' f') :
    Option.Rel
      (Same ⟨shared.built ∨ actions.any WriteAction.builds = true,
        fun j => shared.words j ∨ actions.any (WriteAction.stores j) = true⟩)
      (runWrites bound run reach actions scene f)
      (Fifo.runWrites bound run' reach actions scene' f') := by
  induction actions generalizing shared scene f scene' f' with
  | nil => exact .some ⟨rfl, by simpa using h⟩
  | cons action actions ih =>
      unfold Fifo.runWrites
      cases action with
      | build v =>
          refine rel_bind (ih (h.build v)) ?_
          rintro ⟨replies, s, g⟩ ⟨replies', s', g'⟩ ⟨hreplies, hstate⟩
          obtain rfl : replies' = replies := hreplies
          refine .some ⟨rfl, ?_⟩
          simpa [WriteAction.builds, WriteAction.stores] using hstate
      | setWords words =>
          refine rel_bind (ih (h.putWords words)) ?_
          rintro ⟨replies, s, g⟩ ⟨replies', s', g'⟩ ⟨hreplies, hstate⟩
          obtain rfl : replies' = replies := hreplies
          refine .some ⟨rfl, ?_⟩
          simpa [WriteAction.builds, WriteAction.stores, or_assoc] using hstate
      | nested c =>
          refine rel_bind (hrun reach c shared scene f scene' f' (.inl hreach) h) ?_
          rintro a b ⟨hresult, hevents, hran⟩
          refine rel_bind (ih hran) ?_
          rintro ⟨replies, s, g⟩ ⟨replies', s', g'⟩ ⟨hreplies, hstate⟩
          obtain rfl : replies' = replies := hreplies
          refine .some ⟨?_, ?_⟩
          · rw [hresult, hevents, hran.report_eq]
          · simpa [WriteAction.builds, WriteAction.stores] using hstate

/-- The actions on a slot held for reading. -/
theorem runReads (hrun : run.Alike run') (actions : List (ReadAction k ω))
    (hreach : reach.producer = false ∨ shared = .nothing ∧ readsInitialise actions = true)
    (h : Spsc.Alike shared scene f scene' f') :
    Option.Rel (Same shared) (runReads bound run reach actions scene f)
      (Fifo.runReads bound run' reach actions scene' f') := by
  induction actions generalizing scene f scene' f' with
  | nil => exact .some ⟨rfl, h⟩
  | cons action actions ih =>
      unfold Fifo.runReads
      cases action with
      | read =>
          simp only [h.queue]
          cases f.queue.head? with
          | none => exact .none
          | some v =>
              simp only [Option.bind_eq_bind, Option.bind_some]
              refine rel_bind (ih hreach h) ?_
              rintro ⟨replies, s, g⟩ ⟨replies', s', g'⟩ ⟨hreplies, hstate⟩
              obtain rfl : replies' = replies := hreplies
              exact .some ⟨rfl, hstate⟩
      | edit v =>
          refine rel_bind (ih hreach (h.edit v)) ?_
          rintro ⟨replies, s, g⟩ ⟨replies', s', g'⟩ ⟨hreplies, hstate⟩
          obtain rfl : replies' = replies := hreplies
          exact .some ⟨rfl, hstate⟩
      | nested c =>
          have hsplit : (reach.producer = false ∨ shared = .nothing ∧ c.initialises = true) ∧
              (reach.producer = false ∨ shared = .nothing ∧ readsInitialise actions = true) := by
            simp only [readsInitialise, Bool.and_eq_true] at hreach
            tauto
          refine rel_bind (hrun reach c shared scene f scene' f' hsplit.1 h) ?_
          rintro a b ⟨hresult, hevents, hran⟩
          refine rel_bind (ih hsplit.2 hran) ?_
          rintro ⟨replies, s, g⟩ ⟨replies', s', g'⟩ ⟨hreplies, hstate⟩
          obtain rfl : replies' = replies := hreplies
          refine .some ⟨?_, hstate⟩
          rw [hresult, hevents, hran.report_eq]

/-! ### Commands -/

theorem appendWithin (h : Spsc.Alike shared scene f scene' f') (vs : List (Element k ω)) :
    Option.Rel (fun g g' => Spsc.Alike .nothing scene g scene' g') (f.appendWithin bound vs)
      (f'.appendWithin bound vs) := by
  unfold Fifo.appendWithin
  rw [h.queue]
  split
  · exact .some (h.append vs)
  · exact .none

/-- The end of a hold on a slot for writing.  What is committed was filled on both sides. -/
theorem endWrite (h : Spsc.Alike shared scene f scene' f') (ending : WriteEnding k ω)
    (hfilled : ending = .commit → shared.built ∧ ∀ j, shared.words j) :
    Option.Rel (Same .nothing) (endWrite bound ending scene f)
      (Fifo.endWrite bound ending scene' f') := by
  unfold Fifo.endWrite
  cases ending with
  | write v =>
      refine rel_bind (appendWithin h [v]) ?_
      intro g g' hstate
      exact .some ⟨rfl, hstate.rescene h.iterators⟩
  | commit =>
      obtain ⟨hbuilt, hwords⟩ := hfilled rfl
      obtain ⟨hscene, hscene'⟩ := h.built hbuilt
      have htake : f'.vacant.take 1 = f.vacant.take 1 := by
        have hlength := h.vacant
        have hfirst := h.first
        generalize f.vacant = vacant at hlength hfirst ⊢
        generalize f'.vacant = vacant' at hlength hfirst ⊢
        rcases vacant with _ | ⟨v, vs⟩ <;> rcases vacant' with _ | ⟨v', vs'⟩
        · rfl
        · cases hlength
        · cases hlength
        · have hsame : v' = v := Vector.ext fun j hj => hfirst v v' rfl rfl ⟨j, hj⟩ (hwords _)
          rw [hsame]
          rfl
      simp only [hscene, hscene', if_true, htake]
      refine rel_bind (appendWithin h (f.vacant.take 1)) ?_
      intro g g' hstate
      exact .some ⟨rfl, hstate.rescene h.iterators⟩
  | abandon => exact .some ⟨rfl, h.weaken⟩

theorem endRead (h : Spsc.Alike shared scene f scene' f') (ending : ReadEnding) :
    Option.Rel (fun a b => b.1 = a.1 ∧ b.2.1 = a.2.1 ∧ Spsc.Alike shared scene a.2.2 scene' b.2.2)
      (endRead watched ending f) (Fifo.endRead watched ending f') := by
  unfold Fifo.endRead
  rw [h.queue]
  cases f.queue.head? with
  | none => exact .none
  | some v =>
      cases ending with
      | release | take => exact .some ⟨rfl, rfl, h.remove 1⟩
      | releaseFails | keep => exact .some ⟨rfl, rfl, h⟩

theorem runProducer (hrun : run.Alike run') (c : Command k ω) (hinit : c.initialises = true)
    (h : Spsc.Alike .nothing scene f scene' f') :
    Option.Rel (Ran.Alike .nothing) (runProducer bound watched run reach c scene f)
      (Fifo.runProducer bound watched run' reach c scene' f') := by
  have hcleared : Spsc.Alike .nothing { scene with built := false } f
      { scene' with built := false } f' := h.rescene h.iterators
  unfold Fifo.runProducer
  cases c with
  | push v =>
      simp only [h.queue]
      split
      · exact .some ⟨rfl, rfl, hcleared⟩
      · refine rel_bind (appendWithin h [v]) ?_
        intro g g' hstate
        exact .some ⟨rfl, rfl, hstate.rescene h.iterators⟩
  | pushBatch copies =>
      simp only [h.queue]
      refine rel_bind (hrun.copyAll rfl _ [] ⟨{ scene with built := false }, []⟩
        ⟨{ scene' with built := false }, []⟩ rfl hcleared) ?_
      rintro ⟨drafted?, q, g⟩ ⟨drafted?', q', g'⟩ ⟨hdrafted, hevents, hstate⟩
      obtain rfl : drafted?' = drafted? := hdrafted
      cases drafted?' with
      | none => exact .some ⟨rfl, hevents, hstate⟩
      | some drafted =>
          refine rel_bind (appendWithin hstate drafted) ?_
          intro g₁ g₁' hlast
          exact .some ⟨rfl, hevents, hlast⟩
  | pushFrom iterator limit =>
      simp only
      refine rel_bind (hrun.pullAll rfl iterator bound [] limit ⟨{ scene with built := false }, []⟩
        ⟨{ scene' with built := false }, []⟩ rfl hcleared) ?_
      rintro ⟨drafted?, q, g⟩ ⟨drafted?', q', g'⟩ ⟨hdrafted, hevents, hstate⟩
      obtain rfl : drafted?' = drafted? := hdrafted
      have hleft := hstate.left_eq iterator
      simp only at hleft
      cases drafted?' with
      | none =>
          refine .some ⟨?_, hevents, hstate⟩
          simp only [hleft]
      | some drafted =>
          refine rel_bind (appendWithin hstate drafted) ?_
          intro g₁ g₁' hlast
          refine .some ⟨?_, hevents, hlast⟩
          simp only [hleft]
  | writeSlot actions ending =>
      simp only [h.queue]
      split
      · exact .some ⟨rfl, rfl, h⟩
      · refine rel_bind (hrun.runWrites rfl actions h) ?_
        rintro ⟨replies, s, g⟩ ⟨replies', s', g'⟩ ⟨hreplies, hstate⟩
        obtain rfl : replies' = replies := hreplies
        refine rel_bind (endWrite hstate ending ?_) ?_
        · rintro rfl
          simp only [Command.initialises, fillsSlot, Bool.and_eq_true, decide_eq_true_eq] at hinit
          exact ⟨.inr hinit.1, fun j => .inr (hinit.2 j)⟩
        · rintro ⟨outcome, t, g₁⟩ ⟨outcome', t', g₁'⟩ ⟨houtcome, hlast⟩
          obtain rfl : outcome' = outcome := houtcome
          exact .some ⟨rfl, rfl, hlast⟩
  | _ => exact .some ⟨rfl, rfl, h⟩

theorem runConsumer (hrun : run.Alike run') (c : Command k ω)
    (hreach : reach.producer = false ∨ shared = .nothing ∧ c.initialises = true)
    (h : Spsc.Alike shared scene f scene' f') :
    Option.Rel (Ran.Alike shared) (runConsumer bound watched run reach c scene f)
      (Fifo.runConsumer bound watched run' reach c scene' f') := by
  unfold Fifo.runConsumer
  cases c with
  | pop =>
      simp only [h.queue]
      cases f.queue with
      | nil => exact .some ⟨rfl, rfl, h⟩
      | cons v vs => exact .some ⟨rfl, rfl, h.remove 1⟩
  | popBatch limit out =>
      simp only [h.queue]
      exact .some ⟨rfl, rfl, h.remove _⟩
  | readSlot actions ending =>
      simp only [h.queue]
      split
      · exact .some ⟨rfl, rfl, h⟩
      · refine rel_bind (hrun.runReads actions hreach h) ?_
        rintro ⟨replies, s, g⟩ ⟨replies', s', g'⟩ ⟨hreplies, hstate⟩
        obtain rfl : replies' = replies := hreplies
        refine rel_bind (endRead hstate ending) ?_
        rintro ⟨outcome, events, g₁⟩ ⟨outcome', events', g₁'⟩ ⟨houtcome, hevents, hlast⟩
        obtain rfl : outcome' = outcome := houtcome
        obtain rfl : events' = events := hevents
        exact .some ⟨rfl, rfl, hlast⟩
  | _ => exact .some ⟨rfl, rfl, h⟩

/-- Commands do the same on lists that are alike if those inside them do. -/
theorem runLevel (hrun : run.Alike run') :
    Runner.Alike (Fifo.runLevel bound watched run) (Fifo.runLevel bound watched run') := by
  intro reach c shared scene f scene' f' hreach h
  unfold Fifo.runLevel
  cases hhandle : c.handle? with
  | some handle =>
      cases handle with
      | producer =>
          simp only
          split
          · next hproducer =>
            obtain ⟨rfl, hinit⟩ := hreach.resolve_left (by simp [hproducer])
            exact hrun.runProducer c hinit h
          · exact .some ⟨rfl, rfl, h⟩
      | consumer =>
          simp only
          split
          · exact hrun.runConsumer c hreach h
          · exact .some ⟨rfl, rfl, h⟩
  | none =>
      cases c with
      | pull iterator =>
          simp only
          refine rel_bind (hrun.ask rfl iterator ⟨scene, []⟩ ⟨scene', []⟩ h) ?_
          rintro ⟨answer, q, g⟩ ⟨answer', q', g'⟩ ⟨hanswer, hasked⟩
          obtain rfl : answer' = answer := hanswer
          exact .some ⟨rfl, hasked.events_eq rfl, hasked.2⟩
      | _ => cases hhandle

end Runner.Alike

/-- Commands do the same on lists that are alike. -/
theorem runCommand_alike (bound : Nat) (watched : Bool) (fuel : Nat) :
    Runner.Alike (runCommand bound watched fuel : Runner k ω)
      (Fifo.runCommand bound watched fuel) := by
  induction fuel with
  | zero => exact fun _ _ _ _ _ _ _ _ _ => .none
  | succ fuel ih =>
      rw [runCommand_succ]
      exact ih.runLevel

end

end Fifo

end LockFreeRings.Spsc

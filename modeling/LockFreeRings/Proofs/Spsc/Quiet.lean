import LockFreeRings.Proofs.Spsc.Nesting
set_option autoImplicit false

/-!
# Calls that publish nothing

A call may be refused, may find nothing, may be cut short by a copy or an iterator that fails,
and a hold may end without handing its slot over.  `Command.quiet?` tells these calls by their
replies, and lists what ran inside them (`Inside`).

Such a call does not move its handle's cursor, and what runs inside it cannot, since it does
not reach the handle.  The lemmas say this of everything that a call may run, for the cursor of
either handle (`Runner.Leaves`).
-/

namespace LockFreeRings.Spsc

variable {n : SlotCount} {k : Nat} {ω : Type}

/-- Code that cannot use a handle. -/
def Reach.without (reach : Reach) : Handle → Reach
  | .producer => { reach with producer := false }
  | .consumer => { reach with consumer := false }

/-- Whether code can use a handle. -/
def Reach.has (reach : Reach) : Handle → Bool
  | .producer => reach.producer
  | .consumer => reach.consumer

/-- The cursor that a handle moves. -/
def Handle.cursor : Handle → Ring n k ω → UInt64
  | .producer, r => r.tail
  | .consumer, r => r.head

/-! ## What runs inside a call -/

/-- What a call lets its caller's code do. -/
inductive Inside (k : Nat) (ω : Type) where
  | command (c : Command k ω)
  /-- an iterator is asked, and runs what comes before its answer -/
  | ask (iterator : Nat)

/-- What runs inside a call, run without the call. -/
def runInside (run : Runner n k ω) (reach : Reach) :
    List (Inside k ω) → Scene k ω → Ring n k ω → Scene k ω × Ring n k ω
  | [], scene, r => (scene, r)
  | .command c :: insides, scene, r =>
    let ran := run reach c scene r
    runInside run reach insides ran.scene ran.ring
  | .ask iterator :: insides, scene, r =>
    let (_, p, r) := ask run reach iterator ⟨scene, []⟩ r
    runInside run reach insides p.scene r

/-- The commands that come before copies, up to the first copy that fails. -/
def copiesInside : List (Copy k ω) → List (Inside k ω)
  | [] => []
  | .mk _ before fails :: copies =>
    before.map .command ++ if fails then [] else copiesInside copies

/-- The commands among the actions on a slot that is held for writing. -/
def writesInside : List (WriteAction k ω) → List (Inside k ω)
  | [] => []
  | .nested c :: actions => .command c :: writesInside actions
  | _ :: actions => writesInside actions

/-- The commands among the actions on a slot that is held for reading, if the element is
not changed. -/
def readsInside? : List (ReadAction k ω) → Option (List (Inside k ω))
  | [] => some []
  | .nested c :: actions => (readsInside? actions).map (.command c :: ·)
  | .read :: actions => readsInside? actions
  | .edit _ :: _ => none

/-- Whether an event is the answer of an iterator. -/
def Event.isAnswer : Event k ω → Bool
  | .pulled _ | .exhausted => true
  | _ => false

/-- How often a call was answered by an iterator; an iterator that fails gives no answer. -/
def answers (events : List (Event k ω)) : Nat := events.countP Event.isAnswer

/-- What ran inside a call, if the call has neither published nor removed anything. -/
def Command.quiet? (c : Command k ω) (reply : Reply k ω) (events : List (Event k ω)) :
    Option (List (Inside k ω)) :=
  match c with
  | .push _ =>
    match reply with
    | .full _ => some []
    | _ => none
  | .pushBatch copies =>
    match reply with
    | .pushedMany 0 => some []
    | .copyFailed => some (copiesInside copies)
    | _ => none
  | .pushFrom iterator _ =>
    match reply with
    | .pulledMany 0 _ => some (.replicate (answers events) (.ask iterator))
    | .iteratorFailed _ => some (.replicate (answers events + 1) (.ask iterator))
    | _ => none
  | .writeSlot actions _ =>
    match reply with
    | .noSlot => some []
    | .wrote _ .abandoned | .wrote _ .unbuilt => some (writesInside actions)
    | _ => none
  | .pop =>
    match reply with
    | .empty => some []
    | _ => none
  | .popBatch _ _ =>
    match reply with
    | .poppedMany 0 _ => some []
    | _ => none
  | .readSlot actions _ =>
    match reply with
    | .noSlot => some []
    | .readOut _ .kept => readsInside? actions
    | _ => none
  | _ => none

/-! What the replies of calls that are quiet say. -/

theorem isSome_quiet?_push {v : Element k ω} {success : Bool} {events : List (Event k ω)}
    (h : ((Command.push v).quiet? (if success then .pushed else .full v) events).isSome) :
    success = false := by
  cases success with
  | false => rfl
  | true => cases h

theorem isSome_quiet?_pushBatch {copies : List (Copy k ω)} {count? : Option Nat}
    {events : List (Event k ω)}
    (h : ((Command.pushBatch copies).quiet?
      (match count? with
        | none => .copyFailed
        | some count => .pushedMany count) events).isSome) :
    count? = none ∨ count? = some 0 := by
  rcases count? with _ | _ | count
  · exact .inl rfl
  · exact .inr rfl
  · cases h

theorem isSome_quiet?_pushFrom {iterator left : Nat} {limit : Option UInt64} {count? : Option Nat}
    {events : List (Event k ω)}
    (h : ((Command.pushFrom iterator limit).quiet?
      (match count? with
        | none => .iteratorFailed left
        | some count => .pulledMany count left) events).isSome) :
    count? = none ∨ count? = some 0 := by
  rcases count? with _ | _ | count
  · exact .inl rfl
  · exact .inr rfl
  · cases h

theorem isSome_quiet?_writeSlot {actions : List (WriteAction k ω)} {ending : WriteEnding k ω}
    {replies : List (WriteReply k ω)} {outcome : WriteOutcome} {events : List (Event k ω)}
    (h : ((Command.writeSlot actions ending).quiet? (.wrote replies outcome) events).isSome) :
    outcome = .abandoned ∨ outcome = .unbuilt := by
  cases outcome with
  | written | committed => cases h
  | unbuilt => exact .inr rfl
  | abandoned => exact .inl rfl

theorem isSome_quiet?_pop {v? : Option (Element k ω)} {events : List (Event k ω)}
    (h : (Command.pop.quiet?
      (match v? with
        | none => .empty
        | some v => .popped v) events).isSome) :
    v? = none := by
  cases v? with
  | none => rfl
  | some v => cases h

theorem isSome_quiet?_popBatch {limit : UInt64} {out vs : List (Element k ω)}
    {events : List (Event k ω)}
    (h : ((Command.popBatch limit out).quiet? (.poppedMany vs.length (out ++ vs)) events).isSome) :
    vs = [] := by
  cases vs with
  | nil => rfl
  | cons v vs => cases h

theorem isSome_quiet?_readSlot {actions : List (ReadAction k ω)} {ending : ReadEnding}
    {replies : List (ReadReply k ω)} {outcome : ReadOutcome k ω} {events : List (Event k ω)}
    (h : ((Command.readSlot actions ending).quiet? (.readOut replies outcome) events).isSome) :
    outcome = .kept := by
  cases outcome with
  | released | endFailed | taken v => cases h
  | kept => rfl

/-- What the code inside a call reaches. -/
def Command.insideReach (c : Command k ω) (reach : Reach) : Reach :=
  match c.handle? with
  | some handle => reach.without handle
  | none => reach

/-! ## Cursors that a call's stores leave -/

namespace Ring

variable (handle : Handle)

@[simp] theorem cursor_write (r : Ring n k ω) (i : UInt64) (v : Element k ω) :
    handle.cursor (r.write i v) = handle.cursor r := by
  cases handle <;> rfl

theorem cursor_writeWords (r : Ring n k ω) (i : UInt64) (words : List (Fin k × ω)) :
    handle.cursor (words.foldl (fun r word => r.writeWord i word.1 word.2) r) =
      handle.cursor r := by
  induction words generalizing r with
  | nil => rfl
  | cons word words ih => rw [List.foldl_cons, ih, writeWord, cursor_write]

@[simp] theorem cursor_room (r : Ring n k ω) (tail want : UInt64) :
    handle.cursor (r.room tail want).2 = handle.cursor r := by
  unfold room
  split
  · rfl
  · cases handle <;> rfl

@[simp] theorem cursor_available (r : Ring n k ω) (head want : UInt64) :
    handle.cursor (r.available head want).2 = handle.cursor r := by
  unfold available
  split
  · rfl
  · cases handle <;> rfl

section callbacks

variable {ι σ : Type} {handle}

theorem cursor_writeCopies {copy : ι → σ → Ring n k ω → Option (Element k ω) × σ × Ring n k ω}
    (hcopy : ∀ item s r, handle.cursor (copy item s r).2.2 = handle.cursor r) (items : List ι)
    (tail : UInt64) (s : σ) (r : Ring n k ω) :
    handle.cursor (writeCopies copy items tail s r).2.2 = handle.cursor r := by
  induction items generalizing tail s r with
  | nil => rfl
  | cons item items ih =>
      have hitem := hcopy item s r
      unfold writeCopies
      rcases hmade : copy item s r with ⟨_ | v, s', r'⟩ <;> rw [hmade] at hitem
      · exact hitem
      · exact (ih _ _ _).trans ((cursor_write handle r' tail v).trans hitem)

theorem cursor_writePulls {pull : σ → Ring n k ω → Pull (Element k ω) × σ × Ring n k ω}
    (hpull : ∀ s r, handle.cursor (pull s r).2.2 = handle.cursor r) (fuel count : Nat)
    (tail : UInt64) (s : σ) (r : Ring n k ω) :
    handle.cursor (writePulls pull fuel count tail s r).2.2 = handle.cursor r := by
  induction fuel generalizing count tail s r with
  | zero => rfl
  | succ fuel ih =>
      have hroom := cursor_room handle r tail 1
      have hasked := hpull s (r.room tail 1).2
      unfold writePulls
      simp only
      split
      · exact hroom
      · rcases hmade : pull s (r.room tail 1).2 with ⟨v | _ | _, s', r'⟩ <;> rw [hmade] at hasked
        · exact (ih _ _ _ _).trans
            ((cursor_write handle r' tail v).trans (hasked.trans hroom))
        · exact hasked.trans hroom
        · exact hasked.trans hroom

/-- A batch moves the tail, unless it publishes nothing. -/
theorem cursor_pushCopies {copy : ι → σ → Ring n k ω → Option (Element k ω) × σ × Ring n k ω}
    (hcopy : ∀ item s r, handle.cursor (copy item s r).2.2 = handle.cursor r) (items : List ι)
    (s : σ) (r : Ring n k ω)
    (hquiet : handle = .producer →
      (pushCopies copy items s r).1 = none ∨ (pushCopies copy items s r).1 = some 0) :
    handle.cursor (pushCopies copy items s r).2.2 = handle.cursor r := by
  have hroom := cursor_room handle r r.tail (sliceLength items)
  unfold pushCopies at hquiet ⊢
  simp only at hquiet ⊢
  split at hquiet <;> rename_i hcount
  · rw [if_pos hcount]
    exact hroom
  · rw [if_neg hcount]
    have hwritten := cursor_writeCopies hcopy
      (items.take (min (r.room r.tail (sliceLength items)).1.toNat items.length)) r.tail s
      (r.room r.tail (sliceLength items)).2
    rcases hmade : writeCopies copy
      (items.take (min (r.room r.tail (sliceLength items)).1.toNat items.length)) r.tail s
      (r.room r.tail (sliceLength items)).2 with ⟨_ | tail, s', r'⟩ <;>
      rw [hmade] at hwritten hquiet
    · exact hwritten.trans hroom
    · cases handle with
      | consumer => exact hwritten.trans hroom
      | producer =>
          obtain hnone | hzero := hquiet rfl
          · cases hnone
          · exact absurd (Option.some.inj hzero) hcount

/-- A stream that wrote nothing is where it began, and one that wrote something counts it. -/
theorem writePulls_of_zero {pull : σ → Ring n k ω → Pull (Element k ω) × σ × Ring n k ω}
    (fuel count : Nat) (tail : UInt64) (s : σ) (r : Ring n k ω) {last : Nat × UInt64}
    (h : (writePulls pull fuel count tail s r).1 = some last) :
    count ≤ last.1 ∧ (last.1 = count → last.2 = tail) := by
  induction fuel generalizing count tail s r with
  | zero =>
      cases h
      exact ⟨Nat.le_refl _, fun _ => rfl⟩
  | succ fuel ih =>
      unfold writePulls at h
      simp only at h
      split at h
      · cases h
        exact ⟨Nat.le_refl _, fun _ => rfl⟩
      · rcases hmade : pull s (r.room tail 1).2 with ⟨v | _ | _, s', r'⟩ <;> rw [hmade] at h
        · obtain ⟨hle, -⟩ := ih _ _ _ _ h
          exact ⟨Nat.le_of_succ_le hle, fun heq => absurd hle (by omega)⟩
        · cases h
          exact ⟨Nat.le_refl _, fun _ => rfl⟩
        · cases h

/-- A stream moves the tail, unless it publishes nothing. -/
theorem cursor_pushFrom {pull : σ → Ring n k ω → Pull (Element k ω) × σ × Ring n k ω}
    (hpull : ∀ s r, handle.cursor (pull s r).2.2 = handle.cursor r) (s : σ) (r : Ring n k ω)
    (hquiet : handle = .producer → (pushFrom pull s r).1 = none ∨ (pushFrom pull s r).1 = some 0) :
    handle.cursor (pushFrom pull s r).2.2 = handle.cursor r := by
  have hwritten := cursor_writePulls hpull n.size 0 r.tail s r
  have hlast : ∀ last, (writePulls pull n.size 0 r.tail s r).1 = some last →
      0 ≤ last.1 ∧ (last.1 = 0 → last.2 = r.tail) :=
    fun last => writePulls_of_zero n.size 0 r.tail s r
  unfold pushFrom at hquiet ⊢
  simp only at hquiet ⊢
  rcases hmade : writePulls pull n.size 0 r.tail s r with ⟨_ | ⟨count, tail⟩, s', r'⟩ <;>
    rw [hmade] at hwritten hquiet hlast
  · exact hwritten
  · simp only
    split
    · exact hwritten
    · next hmoved =>
      cases handle with
      | consumer => exact hwritten
      | producer =>
          obtain hnone | hzero := hquiet rfl
          · cases hnone
          · exact absurd ((hlast _ rfl).2 (Option.some.inj hzero)) hmoved

end callbacks

variable {handle}

theorem cursor_push (r : Ring n k ω) (v : Element k ω)
    (hquiet : handle = .producer → (r.push v).1 = false) :
    handle.cursor (r.push v).2 = handle.cursor r := by
  have hroom := cursor_room handle r r.tail 1
  unfold push at hquiet ⊢
  simp only at hquiet ⊢
  split at hquiet <;> rename_i hzero
  · rw [if_pos hzero]
    exact hroom
  · rw [if_neg hzero]
    cases handle with
    | consumer => exact hroom
    | producer => cases hquiet rfl

theorem cursor_pop (r : Ring n k ω) (hquiet : handle = .consumer → r.pop.1 = none) :
    handle.cursor r.pop.2 = handle.cursor r := by
  have hfound := cursor_available handle r r.head 1
  unfold pop at hquiet ⊢
  simp only at hquiet ⊢
  split at hquiet <;> rename_i hzero
  · rw [if_pos hzero]
    exact hfound
  · rw [if_neg hzero]
    cases handle with
    | producer => exact hfound
    | consumer => cases hquiet rfl

theorem cursor_popBatch (r : Ring n k ω) (limit : UInt64)
    (hquiet : handle = .consumer → (r.popBatch limit).1 = []) :
    handle.cursor (r.popBatch limit).2 = handle.cursor r := by
  have hfound := cursor_available handle r r.head limit
  unfold popBatch at hquiet ⊢
  simp only at hquiet ⊢
  generalize min (r.available r.head limit).1.toNat limit.toNat = count at hquiet ⊢
  cases count with
  | zero => exact hfound
  | succ count =>
      cases handle with
      | producer => exact hfound
      | consumer => cases hquiet rfl

end Ring

theorem cursor_endWrite {handle : Handle} (slot : UInt64) (ending : WriteEnding k ω)
    (scene : Scene k ω) (r : Ring n k ω)
    (hquiet : handle = .producer → (endWrite slot ending scene r).1 = .abandoned ∨
      (endWrite slot ending scene r).1 = .unbuilt) :
    handle.cursor (endWrite slot ending scene r).2.2 = handle.cursor r := by
  cases handle with
  | consumer =>
      unfold endWrite
      cases ending with
      | write v | abandon => rfl
      | commit =>
          simp only
          split <;> rfl
  | producer =>
      have hended := hquiet rfl
      unfold endWrite at hended ⊢
      cases ending with
      | write v => simp at hended
      | abandon => rfl
      | commit =>
          simp only at hended ⊢
          split at hended <;> rename_i hbuilt
          · simp at hended
          · rw [if_neg hbuilt]

theorem cursor_endRead {handle : Handle} (watched : Bool) (slot : UInt64) (ending : ReadEnding)
    (r : Ring n k ω)
    (hquiet : handle = .consumer → (endRead watched slot ending r).1 = .kept) :
    handle.cursor (endRead watched slot ending r).2.2 = handle.cursor r := by
  cases handle with
  | producer => cases ending <;> rfl
  | consumer =>
      have hended := hquiet rfl
      cases ending with
      | release | releaseFails | take => cases hended
      | keep => rfl

/-! ## Cursors that commands leave -/

/-- The cursor of the handle has not moved. -/
def Handle.Still (handle : Handle) (r r' : Ring n k ω) : Prop := handle.cursor r' = handle.cursor r

instance (handle : Handle) : IsPreorder (Ring n k ω) handle.Still where
  refl _ := rfl
  trans _ _ _ h h' := Eq.trans h' h

/-- The runner does not move the cursor of a handle that it does not reach. -/
def Runner.Leaves (run : Runner n k ω) (handle : Handle) : Prop :=
  ∀ (reach : Reach) (c : Command k ω) (scene : Scene k ω) (r : Ring n k ω),
    reach.has handle = false → handle.cursor (run reach c scene r).ring = handle.cursor r

namespace Runner.Leaves

variable {run : Runner n k ω} {handle : Handle} {reach : Reach}

theorem within (hrun : run.Leaves handle) (hreach : reach.has handle = false) :
    run.Within reach handle.Still :=
  fun c scene r => hrun reach c scene r hreach

theorem makeCopy (hrun : run.Leaves handle) (hreach : reach.has handle = false) (watched : Bool)
    (copy : Copy k ω) (p : Progress k ω) (r : Ring n k ω) :
    handle.cursor (makeCopy watched run reach copy p r).2.2 = handle.cursor r := by
  obtain ⟨value, before, fails⟩ := copy
  have hbefore := (hrun.within hreach).runBefore before p r
  unfold Spsc.makeCopy
  simp only
  split
  · exact hbefore
  · split <;> exact hbefore

theorem runWrites (hrun : run.Leaves handle) (hreach : reach.has handle = false) (slot : UInt64)
    (actions : List (WriteAction k ω)) (scene : Scene k ω) (r : Ring n k ω) :
    handle.cursor (runWrites run reach slot actions scene r).2.2 = handle.cursor r := by
  induction actions generalizing scene r with
  | nil => rfl
  | cons action actions ih =>
      cases action with
      | build v => exact (ih _ _).trans (Ring.cursor_write handle r slot v)
      | setWords words => exact (ih _ _).trans (Ring.cursor_writeWords handle r slot words)
      | nested c => exact (ih _ _).trans (hrun reach c scene r hreach)

theorem runReads (hrun : run.Leaves handle) (hreach : reach.has handle = false) (slot : UInt64)
    (actions : List (ReadAction k ω)) (scene : Scene k ω) (r : Ring n k ω) :
    handle.cursor (runReads run reach slot actions scene r).2.2 = handle.cursor r := by
  induction actions generalizing scene r with
  | nil => rfl
  | cons action actions ih =>
      cases action with
      | read => exact ih _ _
      | edit v => exact (ih _ _).trans (Ring.cursor_write handle r slot v)
      | nested c => exact (ih _ _).trans (hrun reach c scene r hreach)

/-- What runs inside a call does not move the cursor of the call's handle. -/
theorem runInside (hrun : run.Leaves handle) (hreach : reach.has handle = false)
    (insides : List (Inside k ω)) (scene : Scene k ω) (r : Ring n k ω) :
    handle.cursor (runInside run reach insides scene r).2 = handle.cursor r := by
  induction insides generalizing scene r with
  | nil => rfl
  | cons inside insides ih =>
      cases inside with
      | command c => exact (ih _ _).trans (hrun reach c scene r hreach)
      | ask iterator => exact (ih _ _).trans ((hrun.within hreach).ask iterator ⟨scene, []⟩ r)

/-! ### One level -/

/-- A producer's command moves no head, and no tail if it publishes nothing. -/
theorem runProducer (hrun : run.Leaves handle)
    (hinside : (reach.without .producer).has handle = false) (watched : Bool) (c : Command k ω)
    (scene : Scene k ω) (r : Ring n k ω)
    (hquiet : handle = .producer →
      (c.quiet? (runProducer watched run reach c scene r).result
        (Spsc.runProducer watched run reach c scene r).events).isSome) :
    handle.cursor (Spsc.runProducer watched run reach c scene r).ring = handle.cursor r := by
  unfold Spsc.runProducer at hquiet ⊢
  cases c with
  | push v => exact Ring.cursor_push r v fun hhandle => isSome_quiet?_push (hquiet hhandle)
  | pushBatch copies =>
      exact Ring.cursor_pushCopies (fun copy p r => hrun.makeCopy hinside watched copy p r)
        copies _ r fun hhandle => isSome_quiet?_pushBatch (hquiet hhandle)
  | pushFrom iterator limit =>
      exact Ring.cursor_pushFrom (fun s r => (hrun.within hinside).askWithin iterator s r) _ r
        fun hhandle => isSome_quiet?_pushFrom (hquiet hhandle)
  | writeSlot actions ending =>
      have hacquire : handle.cursor r.acquireWrite.2 = handle.cursor r :=
        Ring.cursor_room handle r r.tail 1
      simp only at hquiet ⊢
      generalize r.acquireWrite = acquired at hacquire hquiet ⊢
      obtain ⟨_ | slot, r₁⟩ := acquired
      · exact hacquire
      · have hwritten := hrun.runWrites hinside slot actions scene r₁
        refine (cursor_endWrite slot ending _ _ fun hhandle => ?_).trans
          (hwritten.trans hacquire)
        exact isSome_quiet?_writeSlot (hquiet hhandle)
  | _ => rfl

/-- A consumer's command moves no tail, and no head if it removes nothing. -/
theorem runConsumer (hrun : run.Leaves handle)
    (hinside : (reach.without .consumer).has handle = false) (watched : Bool) (c : Command k ω)
    (scene : Scene k ω) (r : Ring n k ω)
    (hquiet : handle = .consumer →
      (c.quiet? (runConsumer watched run reach c scene r).result
        (Spsc.runConsumer watched run reach c scene r).events).isSome) :
    handle.cursor (Spsc.runConsumer watched run reach c scene r).ring = handle.cursor r := by
  unfold Spsc.runConsumer at hquiet ⊢
  cases c with
  | pop => exact Ring.cursor_pop r fun hhandle => isSome_quiet?_pop (hquiet hhandle)
  | popBatch limit out =>
      exact Ring.cursor_popBatch r limit fun hhandle => isSome_quiet?_popBatch (hquiet hhandle)
  | readSlot actions ending =>
      have hacquire : handle.cursor r.acquireRead.2 = handle.cursor r :=
        Ring.cursor_available handle r r.head 1
      simp only at hquiet ⊢
      generalize r.acquireRead = acquired at hacquire hquiet ⊢
      obtain ⟨_ | slot, r₁⟩ := acquired
      · exact hacquire
      · have hread := hrun.runReads hinside slot actions scene r₁
        refine (cursor_endRead watched slot ending _ fun hhandle => ?_).trans
          (hread.trans hacquire)
        exact isSome_quiet?_readSlot (hquiet hhandle)
  | _ => rfl

theorem has_without (reach : Reach) (handle : Handle) :
    (reach.without handle).has handle = false := by
  cases handle <;> rfl

/-- Taking a handle away does not give another one. -/
theorem has_without_of_false {other : Handle} (hreach : reach.has handle = false) :
    (reach.without other).has handle = false := by
  cases handle <;> cases other <;> first | exact hreach | rfl

/-- A command leaves the cursor of a handle that it cannot use, if those inside it do. -/
theorem runLevel (hrun : run.Leaves handle) (watched : Bool) :
    Runner.Leaves (runLevel watched run) handle := by
  intro reach c scene r hreach
  have hinside : ∀ own, (reach.without own).has handle = false :=
    fun own => has_without_of_false hreach
  refine Runner.Within.runLevel (hrun.within (hinside .producer)) ?_ ?_ c scene r
  · intro hproducer c scene r
    refine hrun.runProducer (hinside .producer) watched c scene r ?_
    rintro rfl
    exact absurd (hreach.symm.trans hproducer) Bool.false_ne_true
  · intro hconsumer c scene r
    refine hrun.runConsumer (hinside .consumer) watched c scene r ?_
    rintro rfl
    exact absurd (hreach.symm.trans hconsumer) Bool.false_ne_true

/-- A quiet command leaves the cursor of its own handle too. -/
theorem runLevel_of_quiet {c : Command k ω} (hrun : run.Leaves handle)
    (hhandle : c.handle? = some handle) (watched : Bool) (scene : Scene k ω) (r : Ring n k ω)
    (hquiet : (c.quiet? (Spsc.runLevel watched run reach c scene r).result
      (Spsc.runLevel watched run reach c scene r).events).isSome) :
    handle.cursor (Spsc.runLevel watched run reach c scene r).ring = handle.cursor r := by
  unfold Spsc.runLevel at hquiet ⊢
  rw [hhandle] at hquiet ⊢
  cases handle with
  | producer =>
      simp only at hquiet ⊢
      split at hquiet <;> rename_i hproducer
      · rw [if_pos hproducer]
        exact hrun.runProducer (has_without reach .producer) watched c scene r fun _ => hquiet
      · rw [if_neg hproducer]
  | consumer =>
      simp only at hquiet ⊢
      split at hquiet <;> rename_i hconsumer
      · rw [if_pos hconsumer]
        exact hrun.runConsumer (has_without reach .consumer) watched c scene r fun _ => hquiet
      · rw [if_neg hconsumer]

end Runner.Leaves

/-- Commands leave the cursors of handles that they do not reach. -/
theorem runCommand_leaves (watched : Bool) (fuel : Nat) (handle : Handle) :
    Runner.Leaves (runCommand watched fuel : Runner n k ω) handle := by
  induction fuel with
  | zero => exact fun _ _ _ _ _ => rfl
  | succ fuel ih =>
      rw [runCommand_succ]
      exact ih.runLevel watched

end LockFreeRings.Spsc

import LockFreeRings.Spsc.Ring
set_option autoImplicit false

/-!
# Commands for a one-producer one-consumer queue

Where a call runs code of its caller, a command carries what that code does:
nested commands run before each copy that a batch makes, before an iterator
answers, and while a slot is held.

Iterators outlive the call that asks them, so a command names one by its number,
and a session holds them: each is a list of entries, and an entry is used up
when it is asked for.

`Command.depth` and `iteratorsDepth` say how deeply commands can come to be
nested, which bounds the recursion that runs them.
-/

namespace LockFreeRings.Spsc

/-- How holding a slot for writing ends. -/
inductive WriteEnding (k : Nat) (ω : Type) where
  /-- stores an element and publishes it -/
  | write (v : Element k ω)
  /-- publishes what was built in the slot -/
  | commit
  /-- publishes nothing -/
  | abandon

/-- How holding a slot for reading ends. -/
inductive ReadEnding where
  /-- ends the element and frees its slot -/
  | release
  /-- ends the element, but that fails before its slot is freed -/
  | releaseFails
  /-- takes the element out -/
  | take
  /-- leaves the element at the front -/
  | keep

mutual

/-- What is asked of a handle. -/
inductive Command (k : Nat) (ω : Type) where
  | producerCapacity
  | push (v : Element k ω)
  | pushBatch (copies : List (Copy k ω))
  /-- appends what an iterator answers, asking it at most `limit` times -/
  | pushFrom (iterator : Nat) (limit : Option UInt64)
  /-- holds the next slot to write -/
  | writeSlot (actions : List (WriteAction k ω)) (ending : WriteEnding k ω)
  /-- asks an iterator directly -/
  | pull (iterator : Nat)
  | consumerCapacity
  | pop
  /-- takes out up to `limit` elements behind those that are in `out` -/
  | popBatch (limit : UInt64) (out : List (Element k ω))
  /-- holds the slot of the oldest element -/
  | readSlot (actions : List (ReadAction k ω)) (ending : ReadEnding)

/-- An element that a batch copies: what runs before the copy is made, and
whether making it fails. -/
inductive Copy (k : Nat) (ω : Type) where
  | mk (value : Element k ω) (before : List (Command k ω)) (fails : Bool)

/-- What is done while a slot is held for writing. -/
inductive WriteAction (k : Nat) (ω : Type) where
  /-- builds an element in the slot, over what is there -/
  | build (v : Element k ω)
  /-- stores single words -/
  | setWords (words : List (Fin k × ω))
  | nested (command : Command k ω)

/-- What is done while a slot is held for reading. -/
inductive ReadAction (k : Nat) (ω : Type) where
  | read
  /-- changes the element in place -/
  | edit (v : Element k ω)
  | nested (command : Command k ω)

end

/-- One answer of an iterator and what runs before it. -/
structure IteratorEntry (k : Nat) (ω : Type) where
  before : List (Command k ω)
  answer : Ring.Pull (Element k ω)

/-- What a session is made of: commands, and the end of a handle. -/
inductive SessionCommand (k : Nat) (ω : Type) where
  | command (c : Command k ω)
  | dropProducer
  | dropConsumer

/-! ## Handles -/

/-- Which handle a command needs. -/
inductive Handle where
  | producer
  | consumer
  deriving DecidableEq, Repr

/-- The handle that a command needs; asking an iterator needs none. -/
def Command.handle? {k : Nat} {ω : Type} : Command k ω → Option Handle
  | .producerCapacity | .push _ | .pushBatch _ | .pushFrom _ _ | .writeSlot _ _ => some .producer
  | .consumerCapacity | .pop | .popBatch _ _ | .readSlot _ _ => some .consumer
  | .pull _ => none

/-- Which handles code can reach. -/
structure Reach where
  producer : Bool := true
  consumer : Bool := true
  deriving DecidableEq, Repr

/-! ## Depth

How deeply commands are nested; an iterator counts with all its entries, since
an entry may ask for another one. -/

mutual

/-- How deeply a command is nested. -/
def Command.depth {k : Nat} {ω : Type} : Command k ω → Nat
  | .pushBatch copies => copiesDepth copies + 1
  | .writeSlot actions _ => writesDepth actions + 1
  | .readSlot actions _ => readsDepth actions + 1
  | _ => 1

/-- How deeply the commands of a list are nested. -/
def commandsDepth {k : Nat} {ω : Type} : List (Command k ω) → Nat
  | [] => 0
  | c :: cs => max c.depth (commandsDepth cs)

/-- How deeply the commands before copies are nested. -/
def copiesDepth {k : Nat} {ω : Type} : List (Copy k ω) → Nat
  | [] => 0
  | ⟨_, before, _⟩ :: copies => max (commandsDepth before) (copiesDepth copies)

/-- How deeply the actions on a slot held for writing are nested. -/
def writesDepth {k : Nat} {ω : Type} : List (WriteAction k ω) → Nat
  | [] => 0
  | .nested c :: actions => max c.depth (writesDepth actions)
  | _ :: actions => writesDepth actions

/-- How deeply the actions on a slot held for reading are nested. -/
def readsDepth {k : Nat} {ω : Type} : List (ReadAction k ω) → Nat
  | [] => 0
  | .nested c :: actions => max c.depth (readsDepth actions)
  | _ :: actions => readsDepth actions

end

/-- How deeply the entries of an iterator can nest commands. -/
def entriesDepth {k : Nat} {ω : Type} (entries : List (IteratorEntry k ω)) : Nat :=
  entries.foldr (fun e depth => commandsDepth e.before + 1 + depth) 0

/-- How deeply the entries of all iterators can nest commands. -/
def iteratorsDepth {k : Nat} {ω : Type} (iterators : List (List (IteratorEntry k ω))) : Nat :=
  iterators.foldr (fun entries depth => entriesDepth entries + depth) 0

end LockFreeRings.Spsc

/-! Ordered sequences whose items keep their handles. Items live in slots and the
slots are linked in order, so an item can be put in or taken out anywhere while
the handles of all others stay valid. A slot counts how often it was vacated,
which tells the handle of a former item from that of the present one. -/

namespace YaraRules

/-- Identifies one sequence among all. -/
abbrev ChainId := Nat

/-- Names an item of a sequence. -/
structure Handle where
  chain : ChainId
  index : Nat
  generation : UInt32
deriving DecidableEq, Inhabited, Repr

structure Slot (α : Type) where
  /-- How often the slot was vacated. -/
  generation : UInt32 := 0
  item : Option α
  prev : Option Nat := none
  next : Option Nat := none

structure Chain (α : Type) where
  id : ChainId
  slots : Array (Slot α) := #[]
  /-- Vacant slots, the one to be used next first. -/
  free : List Nat := []
  head : Option Nat := none
  tail : Option Nat := none
  size : Nat := 0

namespace Chain

variable {α : Type}

def generationAt (c : Chain α) (index : Nat) : UInt32 :=
  match c.slots[index]? with
  | some slot => slot.generation
  | none => 0

/-- Handle of the item in a slot. -/
def handle (c : Chain α) (index : Nat) : Handle := ⟨c.id, index, c.generationAt index⟩

/-- Slot of the item that a handle names, if the item is still there. -/
def index? (c : Chain α) (h : Handle) : Option Nat :=
  if h.chain = c.id then
    match c.slots[h.index]? with
    | some slot =>
      if slot.generation = h.generation ∧ slot.item.isSome then some h.index else none
    | none => none
  else none

def contains (c : Chain α) (h : Handle) : Bool := (c.index? h).isSome

def itemAt? (c : Chain α) (index : Nat) : Option α := do (← c.slots[index]?).item

def get? (c : Chain α) (h : Handle) : Option α := do c.itemAt? (← c.index? h)

def first? (c : Chain α) : Option Handle := c.head.map c.handle

def last? (c : Chain α) : Option Handle := c.tail.map c.handle

def next? (c : Chain α) (h : Handle) : Option Handle := do
  let slot ← c.slots[← c.index? h]?
  return c.handle (← slot.next)

def prev? (c : Chain α) (h : Handle) : Option Handle := do
  let slot ← c.slots[← c.index? h]?
  return c.handle (← slot.prev)

/-- Items from slot `current` on, up to slot `last` or the end, in at most `fuel` steps. -/
def walk (c : Chain α) (last : Option Nat) : Nat → Option Nat → List (Handle × α)
  | 0, _ => []
  | _, none => []
  | fuel + 1, some index =>
    match c.slots[index]? with
    | some slot =>
      match slot.item with
      | some item =>
        (c.handle index, item) ::
          (if last = some index then [] else c.walk last fuel slot.next)
      | none => []
    | none => []

/-- Items with their handles, in order. -/
def entries (c : Chain α) : List (Handle × α) := c.walk none c.slots.size c.head

/-- Items from one slot to another, or to the end if the second does not follow the first. -/
def entriesBetween (c : Chain α) (first last : Nat) : List (Handle × α) :=
  c.walk (some last) c.slots.size (some first)

def setNext (next : Option Nat) (slot : Slot α) : Slot α := { slot with next }

def setPrev (prev : Option Nat) (slot : Slot α) : Slot α := { slot with prev }

/-- Replaces the item in an occupied slot. -/
def modifyAt (c : Chain α) (index : Nat) (f : α → α) : Chain α :=
  { c with slots := c.slots.modify index fun slot => { slot with item := slot.item.map f } }

/-- Changes the item that a handle names; nothing happens if there is none. -/
def modify (c : Chain α) (h : Handle) (f : α → α) : Chain α :=
  match c.index? h with
  | some index => c.modifyAt index f
  | none => c

/-- Puts an item into a vacant slot, or into a new one, without linking it. -/
def allocate (c : Chain α) (item : α) : Nat × Chain α :=
  match c.free with
  | index :: free =>
    (index,
      { c with
        slots := c.slots.modify index fun slot =>
          { slot with item := some item, prev := none, next := none }
        free := free
        size := c.size + 1 })
  | [] => (c.slots.size, { c with slots := c.slots.push { item := some item }, size := c.size + 1 })

/-- Slot after which comes what is put right before another one, or at the end. -/
def placeBefore (c : Chain α) : Option Nat → Option Nat
  | some before => (c.slots[before]?).bind (·.prev)
  | none => c.tail

/-- Links a slot right before another one, or at the end. -/
def linkBefore (c : Chain α) (index : Nat) (before : Option Nat) : Chain α :=
  let prev := c.placeBefore before
  let c := { c with slots := c.slots.modify index fun slot => { slot with prev, next := before } }
  let c :=
    match prev with
    | some prev => { c with slots := c.slots.modify prev (setNext (some index)) }
    | none => { c with head := some index }
  match before with
  | some before => { c with slots := c.slots.modify before (setPrev (some index)) }
  | none => { c with tail := some index }

/-- Inserts an item right before a slot, or at the end. -/
def insertAt (c : Chain α) (before : Option Nat) (item : α) : Handle × Chain α :=
  let (index, c) := c.allocate item
  let c := c.linkBefore index before
  (c.handle index, c)

def pushBack (c : Chain α) (item : α) : Handle × Chain α := c.insertAt none item

/-- Slot that follows another one. -/
def nextAt (c : Chain α) (index : Nat) : Option Nat := (c.slots[index]?).bind (·.next)

/-- Unlinks a slot and vacates it. -/
def vacate (c : Chain α) (index : Nat) : Chain α :=
  match c.slots[index]? with
  | none => c
  | some slot =>
    let c :=
      match slot.prev with
      | some prev => { c with slots := c.slots.modify prev (setNext slot.next) }
      | none => { c with head := slot.next }
    let c :=
      match slot.next with
      | some next => { c with slots := c.slots.modify next (setPrev slot.prev) }
      | none => { c with tail := slot.prev }
    { c with
      slots := c.slots.modify index fun slot => { generation := slot.generation + 1, item := none }
      free := index :: c.free
      size := c.size - 1 }

/-- Takes an item out. -/
def take (c : Chain α) (h : Handle) : Option (α × Chain α) := do
  let index ← c.index? h
  let item ← c.itemAt? index
  return (item, c.vacate index)

/-- Applies a function to every item. -/
def mapItems (c : Chain α) (f : α → α) : Chain α :=
  { c with slots := c.slots.map fun slot => { slot with item := slot.item.map f } }

end Chain

end YaraRules

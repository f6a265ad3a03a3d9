import Mathlib.Data.List.Nodup
import Mathlib.Data.List.Perm.Subperm
import Mathlib.Tactic.Tauto
import YaraRules.Chain

/-! The links of a chain. What a chain stores is a slot arena with links in both
directions and a list of vacant slots; what it means is the list of its entries.
`Linked` says that the two agree, and every change of a chain is shown to keep it
and to act on the entries as the list operation that it is named for. -/

namespace YaraRules.Chain

variable {α : Type}

/-- Neighbours of an occupied slot. -/
def linkAt? (c : Chain α) (index : Nat) : Option (Option Nat × Option Nat) := do
  let slot ← c.slots[index]?
  let _ ← slot.item
  return (slot.prev, slot.next)

def entryAt? (c : Chain α) (index : Nat) : Option (Handle × α) :=
  (c.itemAt? index).map fun item => (c.handle index, item)

/-- The slots `order` are occupied and linked one after another, from `prev` to `next`. -/
def Segment (c : Chain α) (prev : Option Nat) : List Nat → Option Nat → Prop
  | [], _ => True
  | index :: rest, next =>
    c.linkAt? index = some (prev, rest.head?.or next) ∧ c.Segment (some index) rest next

/-- The chain runs through exactly the slots `order`, and all other slots are free. -/
structure Linked (c : Chain α) (order : List Nat) : Prop where
  head : c.head = order.head?
  tail : c.tail = order.getLast?
  links : c.Segment none order none
  nodup : order.Nodup
  occupied : ∀ index, (c.itemAt? index).isSome → index ∈ order
  freeNodup : c.free.Nodup
  vacant : ∀ index, index ∈ c.free ↔ index < c.slots.size ∧ c.itemAt? index = none
  size : c.size = order.length

@[simp] theorem linkAt?_isSome (c : Chain α) (index : Nat) :
    (c.linkAt? index).isSome = (c.itemAt? index).isSome := by
  unfold linkAt? itemAt?
  cases c.slots[index]? with
  | none => rfl
  | some slot => cases item : slot.item <;> simp [item]

@[simp] theorem entryAt?_isSome (c : Chain α) (index : Nat) :
    (c.entryAt? index).isSome = (c.itemAt? index).isSome := by
  simp [entryAt?]

private theorem lt_of_linkAt? {c : Chain α} {index : Nat} {link} (found : c.linkAt? index = some link) :
    index < c.slots.size := by
  by_contra outside
  have missing : c.slots[index]? = none := Array.getElem?_eq_none (Nat.le_of_not_lt outside)
  simp [linkAt?, missing] at found

theorem segment_append (c : Chain α) (prev : Option Nat) (front back : List Nat) (next : Option Nat) :
    c.Segment prev (front ++ back) next ↔
      c.Segment prev front (back.head?.or next) ∧ c.Segment (front.getLast?.or prev) back next := by
  induction front generalizing prev with
  | nil => simp [Segment]
  | cons index rest ih =>
    have border : (rest ++ back).head?.or next = rest.head?.or (back.head?.or next) := by
      cases rest <;> simp
    have last : ((index :: rest).getLast?.or prev) = rest.getLast?.or (some index) := by
      cases rest <;> simp [List.getLast?_cons]
    simp only [List.cons_append, Segment, ih, border, last, and_assoc]

theorem Segment.congr {c d : Chain α} {prev next : Option Nat} {order : List Nat}
    (segment : c.Segment prev order next) (same : ∀ index ∈ order, d.linkAt? index = c.linkAt? index) :
    d.Segment prev order next := by
  induction order generalizing prev with
  | nil => trivial
  | cons index rest ih =>
    refine ⟨(same index (by simp)).trans segment.1, ih segment.2 ?_⟩
    exact fun other member => same other (by simp [member])

theorem Segment.occupied {c : Chain α} {prev next : Option Nat} {order : List Nat}
    (segment : c.Segment prev order next) {index : Nat} (member : index ∈ order) :
    (c.itemAt? index).isSome := by
  induction order generalizing prev with
  | nil => cases member
  | cons first rest ih =>
    rcases List.mem_cons.mp member with rfl | later
    · rw [← linkAt?_isSome, segment.1]
      rfl
    · exact ih segment.2 later

/-- A walk passes over the slots before its last one. -/
theorem walk_segment {c : Chain α} {last prev next : Option Nat} {front back : List Nat}
    (segment : c.Segment prev (front ++ back) next) (before : ∀ index ∈ front, last ≠ some index)
    {fuel : Nat} (enough : front.length ≤ fuel) :
    c.walk last fuel ((front ++ back).head?.or next) =
      front.filterMap c.entryAt? ++ c.walk last (fuel - front.length) (back.head?.or next) := by
  induction front generalizing prev fuel with
  | nil => simp
  | cons index rest ih =>
    obtain ⟨link, tail⟩ := segment
    obtain ⟨slot, found, item, present, linked⟩ :
        ∃ slot, c.slots[index]? = some slot ∧ ∃ item, slot.item = some item ∧
          (slot.prev, slot.next) = (prev, (rest ++ back).head?.or next) := by
      simpa [linkAt?, Option.bind_eq_some_iff] using link
    cases fuel with
    | zero => simp at enough
    | succ fuel =>
      have onward : last ≠ some index := before index (by simp)
      have continued := ih tail (fun other member => before other (by simp [member]))
        (Nat.le_of_succ_le_succ enough)
      have entry : c.entryAt? index = some (c.handle index, item) := by
        simp [entryAt?, itemAt?, found, present]
      have forward : slot.next = (rest ++ back).head?.or next := (Prod.mk.inj linked).2
      simp only [List.cons_append, List.head?_cons, Option.some_or, walk, found, present, if_neg onward,
        forward, continued, List.filterMap_cons, entry, List.length_cons, Nat.add_sub_add_right]

namespace Linked

variable {c : Chain α} {order : List Nat}

private theorem lt_size (linked : c.Linked order) {index : Nat} (member : index ∈ order) : index < c.slots.size := by
  obtain ⟨link, found⟩ := Option.isSome_iff_exists.mp
    ((c.linkAt?_isSome index).trans (linked.links.occupied member))
  exact lt_of_linkAt? found

theorem length_le (linked : c.Linked order) : order.length ≤ c.slots.size := by
  have inside : order ⊆ List.range c.slots.size := fun index member =>
    List.mem_range.mpr (linked.lt_size member)
  simpa using (linked.nodup.subperm inside).length_le

theorem mem_iff (linked : c.Linked order) (index : Nat) : index ∈ order ↔ (c.itemAt? index).isSome :=
  ⟨linked.links.occupied, linked.occupied index⟩

theorem entries_eq (linked : c.Linked order) : c.entries = order.filterMap c.entryAt? := by
  have whole : c.Segment none (order ++ []) none := by simpa using linked.links
  have walked : c.walk none c.slots.size ((order ++ []).head?.or none) = _ :=
    walk_segment whole (by simp) linked.length_le
  have stop : ∀ fuel, c.walk none fuel none = [] := fun fuel => by cases fuel <;> rfl
  simpa [entries, linked.head, stop] using walked

end Linked

section LinkBefore

variable (c : Chain α) (index : Nat) (before : Option Nat)

private theorem slots_linkBefore (other : Nat) :
    (c.linkBefore index before).slots[other]? = (c.slots[other]?).map fun slot =>
      { slot with
        prev := if before = some other then some index
          else if index = other then c.placeBefore before else slot.prev
        next := if c.placeBefore before = some other then some index
          else if index = other then before else slot.next } := by
  unfold linkBefore
  generalize c.placeBefore before = place
  cases before <;> cases place <;> simp only [Array.getElem?_modify, reduceCtorEq, if_false, Option.some.injEq]
  all_goals
    cases c.slots[other]? with
    | none => split_ifs <;> rfl
    | some slot => split_ifs <;> rfl

private theorem linkAt?_linkBefore (other : Nat) :
    (c.linkBefore index before).linkAt? other = (c.linkAt? other).map fun link =>
      (if before = some other then some index else if index = other then c.placeBefore before else link.1,
        if c.placeBefore before = some other then some index else if index = other then before else link.2) := by
  unfold linkAt?
  rw [slots_linkBefore]
  cases c.slots[other]? with
  | none => rfl
  | some slot => cases item : slot.item <;> simp [item]

@[simp] theorem itemAt?_linkBefore (other : Nat) :
    (c.linkBefore index before).itemAt? other = c.itemAt? other := by
  unfold itemAt?
  rw [slots_linkBefore]
  cases c.slots[other]? <;> rfl

@[simp] theorem generationAt_linkBefore (other : Nat) :
    (c.linkBefore index before).generationAt other = c.generationAt other := by
  unfold generationAt
  rw [slots_linkBefore]
  cases c.slots[other]? <;> rfl

private theorem frame_linkBefore :
    (c.linkBefore index before).id = c.id ∧ (c.linkBefore index before).free = c.free ∧
      (c.linkBefore index before).size = c.size ∧
      (c.linkBefore index before).slots.size = c.slots.size ∧
      (c.linkBefore index before).head = (if c.placeBefore before = none then some index else c.head) ∧
      (c.linkBefore index before).tail = (if before = none then some index else c.tail) := by
  unfold linkBefore
  generalize c.placeBefore before = place
  cases before <;> cases place <;> simp

end LinkBefore

/-- An item was put into the slot `new`, which nothing is linked to yet. -/
structure Allocated (c : Chain α) (item : α) (new : Nat) (d : Chain α) : Prop where
  id : d.id = c.id
  head : d.head = c.head
  tail : d.tail = c.tail
  size : d.size = c.size + 1
  item : d.itemAt? new = some item
  vacant : c.itemAt? new = none
  generation : ∀ index, d.generationAt index = c.generationAt index
  others : ∀ index, index ≠ new → d.slots[index]? = c.slots[index]?
  freeNodup : d.free.Nodup
  free : ∀ index, index ∈ d.free ↔ index < d.slots.size ∧ d.itemAt? index = none

theorem Linked.allocate {c : Chain α} {order : List Nat} (linked : c.Linked order) (item : α) :
    c.Allocated item (c.allocate item).1 (c.allocate item).2 := by
  unfold Chain.allocate
  cases places : c.free with
  | nil =>
    have full : ∀ index, index < c.slots.size → c.itemAt? index ≠ none := by
      intro index inside missing
      have member := (linked.vacant index).mpr ⟨inside, missing⟩
      simp [places] at member
    have pushed : ∀ index, (c.slots.push { item := some item })[index]? =
        if index = c.slots.size then some { item := some item } else c.slots[index]? :=
      fun index => Array.getElem?_push
    have outside : c.slots[c.slots.size]? = none := Array.getElem?_eq_none (Nat.le_refl _)
    refine ⟨rfl, rfl, rfl, rfl, ?_, ?_, ?_, ?_, ?_, ?_⟩
    · simp [itemAt?]
    · simp [itemAt?]
    · intro index
      simp only [generationAt, pushed]
      split_ifs with same
      · simp [same]
      · rfl
    · intro index other
      simp [pushed, other]
    · simp
    · intro index
      simp only [List.not_mem_nil, false_iff, not_and, Array.size_push]
      intro inside missing
      by_cases same : index = c.slots.size
      · simp [itemAt?, same] at missing
      · refine full index (by omega) ?_
        simpa [itemAt?, pushed, same] using missing
  | cons new rest =>
    have nodup : (new :: rest).Nodup := places ▸ linked.freeNodup
    obtain ⟨inside, missing⟩ := (linked.vacant new).mp (by simp [places])
    have changed : ∀ index, (c.slots.modify new fun slot =>
        { slot with item := some item, prev := none, next := none })[index]? =
        if new = index then (c.slots[index]?).map fun slot =>
          { slot with item := some item, prev := none, next := none } else c.slots[index]? :=
      fun index => Array.getElem?_modify
    refine ⟨rfl, rfl, rfl, rfl, ?_, missing, ?_, ?_, (List.nodup_cons.mp nodup).2, ?_⟩
    · simp [itemAt?, changed, Array.getElem?_eq_getElem inside]
    · intro index
      simp only [generationAt, changed]
      split_ifs
      · cases c.slots[index]? <;> rfl
      · rfl
    · intro index other
      simp [changed, Ne.symm other]
    · intro index
      have before := linked.vacant index
      simp only [places, List.mem_cons] at before
      simp only [Array.size_modify, itemAt?, changed]
      by_cases same : new = index
      · subst same
        simp [(List.nodup_cons.mp nodup).1, Array.getElem?_eq_getElem inside]
      · simpa [same, Ne.symm same, itemAt?] using before

private theorem Segment.relinkNext {c d : Chain α} {prev next next' : Option Nat} {order : List Nat}
    (segment : c.Segment prev order next) (nodup : order.Nodup)
    (changed : ∀ index ∈ order, d.linkAt? index = (c.linkAt? index).map fun link =>
      (link.1, if order.getLast? = some index then next' else link.2)) :
    d.Segment prev order next' := by
  induction order generalizing prev with
  | nil => trivial
  | cons index rest ih =>
    have first := changed index (by simp)
    rw [segment.1] at first
    have fresh := (List.nodup_cons.mp nodup).1
    refine ⟨?_, ih segment.2 (List.nodup_cons.mp nodup).2 ?_⟩
    · cases rest with
      | nil => simpa using first
      | cons second others =>
        have later : (second :: others).getLast? ≠ some index := fun same =>
          fresh (List.mem_of_getLast? same)
        simpa [List.getLast?_cons_cons, later] using first
    · intro other member
      rw [changed other (by simp [member])]
      cases rest with
      | nil => cases member
      | cons second others => rw [List.getLast?_cons_cons]

private theorem Segment.relinkPrev {c d : Chain α} {prev prev' next : Option Nat} {order : List Nat}
    (segment : c.Segment prev order next) (nodup : order.Nodup)
    (changed : ∀ index ∈ order, d.linkAt? index = (c.linkAt? index).map fun link =>
      (if order.head? = some index then prev' else link.1, link.2)) :
    d.Segment prev' order next := by
  cases order with
  | nil => trivial
  | cons index rest =>
    have first := changed index (by simp)
    rw [segment.1] at first
    refine ⟨by simpa using first, segment.2.congr fun other member => ?_⟩
    have apart : index ≠ other := fun same => (List.nodup_cons.mp nodup).1 (same ▸ member)
    rw [changed other (by simp [member])]
    simp [apart]

section Insert

variable {c : Chain α} {front back : List Nat}

private theorem placeBefore_back (linked : c.Linked (front ++ back)) {item : α} {new : Nat} {d : Chain α}
    (allocated : c.Allocated item new d) (fresh : new ∉ front ++ back) :
    d.placeBefore back.head? = front.getLast? := by
  cases back with
  | nil => simpa [placeBefore, allocated.tail] using linked.tail
  | cons before rest =>
    have apart : before ≠ new := fun same => fresh (by simp [same])
    have link := ((segment_append c none front (before :: rest) none).mp linked.links).2.1
    obtain ⟨slot, found, item, present, linked⟩ :
        ∃ slot, c.slots[before]? = some slot ∧ ∃ item, slot.item = some item ∧
          (slot.prev, slot.next) = (front.getLast?.or none, rest.head?.or none) := by
      simpa [linkAt?, Option.bind_eq_some_iff] using link
    have prev : slot.prev = front.getLast?.or none := (Prod.mk.inj linked).1
    simp [placeBefore, allocated.others before apart, found, prev]

theorem Linked.insertAt (linked : c.Linked (front ++ back)) (item : α) :
    ∃ new, new ∉ front ++ back ∧ (c.insertAt back.head? item).2.Linked (front ++ new :: back) ∧
      (c.insertAt back.head? item).2.entryAt? new = some ((c.insertAt back.head? item).1, item) ∧
      (c.insertAt back.head? item).1.index = new ∧ (c.insertAt back.head? item).2.id = c.id ∧
      ∀ index, index ≠ new → (c.insertAt back.head? item).2.entryAt? index = c.entryAt? index := by
  have allocated := linked.allocate item
  rcases step : c.allocate item with ⟨new, d⟩
  simp only [Chain.insertAt, step] at allocated ⊢
  have fresh : new ∉ front ++ back := by
    intro member
    have occupied := linked.links.occupied member
    simp [allocated.vacant] at occupied
  have place := placeBefore_back linked allocated fresh
  obtain ⟨id, free, size, slots, head, tail⟩ := frame_linkBefore d new back.head?
  have kept : ∀ index, index ≠ new → d.linkAt? index = c.linkAt? index := fun index other => by
    simp [linkAt?, allocated.others index other]
  have items : ∀ index, index ≠ new → d.itemAt? index = c.itemAt? index := fun index other => by
    simp [itemAt?, allocated.others index other]
  have nodup := List.nodup_append'.mp linked.nodup
  have segments := (segment_append c none front back none).mp linked.links
  refine ⟨new, fresh, ⟨?_, ?_, ?_, ?_, ?_, ?_, ?_, ?_⟩, ?_, rfl, ?_, ?_⟩
  · rw [head, place, allocated.head, linked.head]
    cases front <;> simp
  · rw [tail, allocated.tail, linked.tail]
    cases back <;> simp [List.getLast?_append, List.getLast?_cons]
  · refine (segment_append _ none front (new :: back) none).mpr ⟨segments.1.relinkNext nodup.1 ?_, ?_, ?_⟩
    · intro index member
      have other : index ≠ new := fun same => fresh (by simp [← same, member])
      have outside : back.head? ≠ some index := fun same =>
        nodup.2.2 member (List.mem_of_head? same)
      rw [linkAt?_linkBefore, kept index other, place]
      simp [outside, Ne.symm other]
    · obtain ⟨link, found⟩ := Option.isSome_iff_exists.mp
        ((d.linkAt?_isSome new).trans (by simp [allocated.item]))
      have first : back.head? ≠ some new := fun same => fresh (by simp [List.mem_of_head? same])
      have last : front.getLast? ≠ some new := fun same => fresh (by simp [List.mem_of_getLast? same])
      rw [linkAt?_linkBefore, found, place]
      simp [first, last]
    · refine segments.2.relinkPrev nodup.2.1 ?_
      intro index member
      have other : index ≠ new := fun same => fresh (by simp [← same, member])
      have outside : front.getLast? ≠ some index := fun same =>
        nodup.2.2 (List.mem_of_getLast? same) member
      rw [linkAt?_linkBefore, kept index other, place]
      simp [outside, Ne.symm other]
  · rw [List.nodup_middle]
    exact List.nodup_cons.mpr ⟨fresh, linked.nodup⟩
  · intro index occupied
    rw [itemAt?_linkBefore] at occupied
    by_cases same : index = new
    · simp [same]
    · have member := linked.occupied index (items index same ▸ occupied)
      simp only [List.mem_append, List.mem_cons] at member ⊢
      tauto
  · rw [free]
    exact allocated.freeNodup
  · intro index
    rw [free, slots, itemAt?_linkBefore]
    exact allocated.free index
  · rw [size, allocated.size, linked.size]
    simp only [List.length_append, List.length_cons]
    omega
  · simp [entryAt?, allocated.item]
  · rw [id, allocated.id]
  · intro index other
    simp [entryAt?, handle, items index other, id, allocated.id, allocated.generation index]

end Insert

section Vacate

variable {c : Chain α} {index : Nat} {slot : Slot α}

theorem slots_vacate (found : c.slots[index]? = some slot) (other : Nat) :
    (c.vacate index).slots[other]? = (c.slots[other]?).map fun old =>
      if index = other then { generation := old.generation + 1, item := none }
      else { old with
        prev := if slot.next = some other then slot.prev else old.prev
        next := if slot.prev = some other then slot.next else old.next } := by
  unfold vacate
  simp only [found]
  cases slot.prev <;> cases slot.next <;> simp only [Array.getElem?_modify, reduceCtorEq, if_false, Option.some.injEq]
  all_goals
    cases c.slots[other]? with
    | none => split_ifs <;> rfl
    | some old => split_ifs <;> rfl

theorem frame_vacate (found : c.slots[index]? = some slot) :
    (c.vacate index).id = c.id ∧ (c.vacate index).free = index :: c.free ∧
      (c.vacate index).size = c.size - 1 ∧ (c.vacate index).slots.size = c.slots.size ∧
      (c.vacate index).head = (if slot.prev = none then slot.next else c.head) ∧
      (c.vacate index).tail = (if slot.next = none then slot.prev else c.tail) := by
  unfold vacate
  simp only [found]
  cases slot.prev <;> cases slot.next <;> simp

private theorem linkAt?_vacate (found : c.slots[index]? = some slot) {other : Nat} (apart : index ≠ other) :
    (c.vacate index).linkAt? other = (c.linkAt? other).map fun link =>
      (if slot.next = some other then slot.prev else link.1,
        if slot.prev = some other then slot.next else link.2) := by
  unfold linkAt?
  rw [slots_vacate found]
  cases c.slots[other]? with
  | none => rfl
  | some old => cases item : old.item <;> simp [apart, item]

private theorem entryAt?_vacate (found : c.slots[index]? = some slot) {other : Nat} (apart : index ≠ other) :
    (c.vacate index).entryAt? other = c.entryAt? other := by
  unfold entryAt? itemAt? handle generationAt
  rw [slots_vacate found, (frame_vacate found).1]
  cases c.slots[other]? with
  | none => rfl
  | some old => simp [apart]

theorem itemAt?_vacate (found : c.slots[index]? = some slot) (other : Nat) :
    (c.vacate index).itemAt? other = if index = other then none else c.itemAt? other := by
  unfold itemAt?
  rw [slots_vacate found]
  cases c.slots[other]? with
  | none => simp
  | some old => split_ifs <;> simp_all

theorem Linked.vacate {front back : List Nat} (linked : c.Linked (front ++ index :: back)) :
    (c.vacate index).Linked (front ++ back) ∧ (c.vacate index).id = c.id ∧
      ∀ other, other ≠ index → (c.vacate index).entryAt? other = c.entryAt? other := by
  have segments := (segment_append c none front (index :: back) none).mp linked.links
  have nodup := List.nodup_append'.mp linked.nodup
  have later := List.nodup_cons.mp nodup.2.1
  have earlier : index ∉ front := fun member => nodup.2.2 member (by simp)
  obtain ⟨slot, found, item, present, neighbours⟩ :
      ∃ slot, c.slots[index]? = some slot ∧ ∃ item, slot.item = some item ∧
        (slot.prev, slot.next) = (front.getLast?.or none, back.head?.or none) := by
    simpa [linkAt?, Option.bind_eq_some_iff] using segments.2.1
  have prev : slot.prev = front.getLast? := by simpa using (Prod.mk.inj neighbours).1
  have next : slot.next = back.head? := by simpa using (Prod.mk.inj neighbours).2
  obtain ⟨id, free, size, slots, head, tail⟩ := frame_vacate found
  refine ⟨⟨?_, ?_, ?_, ?_, ?_, ?_, ?_, ?_⟩, id, fun other apart => entryAt?_vacate found (Ne.symm apart)⟩
  · rw [head, prev, next, linked.head]
    cases front <;> simp
  · rw [tail, prev, next, linked.tail]
    cases back <;> simp [List.getLast?_append, List.getLast?_cons]
  · refine (segment_append _ none front back none).mpr
      ⟨segments.1.relinkNext nodup.1 ?_, segments.2.2.relinkPrev later.2 ?_⟩
    · intro other member
      have apart : index ≠ other := fun same => earlier (same ▸ member)
      have outside : back.head? ≠ some other := fun same =>
        nodup.2.2 member (by simp [List.mem_of_head? same])
      rw [linkAt?_vacate found apart, prev, next]
      simp [outside]
    · intro other member
      have apart : index ≠ other := fun same => later.1 (same ▸ member)
      have outside : front.getLast? ≠ some other := fun same =>
        nodup.2.2 (List.mem_of_getLast? same) (by simp [member])
      rw [linkAt?_vacate found apart, prev, next]
      simp [outside]
  · exact (List.nodup_cons.mp (List.nodup_middle.mp linked.nodup)).2
  · intro other occupied
    rw [itemAt?_vacate found] at occupied
    split_ifs at occupied with same
    · cases occupied
    · have member := linked.occupied other occupied
      simp only [List.mem_append, List.mem_cons] at member ⊢
      grind
  · rw [free]
    refine List.nodup_cons.mpr ⟨fun member => ?_, linked.freeNodup⟩
    have missing := ((linked.vacant index).mp member).2
    simp [itemAt?, found, present] at missing
  · intro other
    rw [free, slots, itemAt?_vacate found, List.mem_cons, linked.vacant other]
    split_ifs with same
    · have inside := linked.lt_size (show index ∈ front ++ index :: back by simp)
      simp [← same, inside]
    · simp [Ne.symm same]
  · rw [size, linked.size]
    simp

end Vacate

end YaraRules.Chain

import YaraRules.Proofs.ChainLinks

/-! Chains as lists of entries. A sound chain is one whose links, free list and size
agree with its entries; for such a chain every operation is stated here on the
entries alone, so that later modules need not know how slots are linked. -/

namespace YaraRules.Chain

variable {α : Type}

/-- Slot of an entry. -/
def slotOf (entry : Handle × α) : Nat := entry.1.index

/-- The chain runs through the slots of its entries, and all other slots are free. -/
def Sound (c : Chain α) : Prop := c.Linked (c.entries.map slotOf)

private theorem slotOf_of_entryAt? {c : Chain α} {index : Nat} {entry} (found : c.entryAt? index = some entry) :
    slotOf entry = index := by
  simp only [entryAt?, Option.map_eq_some_iff] at found
  obtain ⟨item, _, rfl⟩ := found
  rfl

private theorem Linked.slots_entries {c : Chain α} {order : List Nat} (linked : c.Linked order) :
    c.entries.map slotOf = order := by
  have total : ∀ index ∈ order, (c.entryAt? index).map slotOf = some index := by
    intro index member
    obtain ⟨entry, found⟩ := Option.isSome_iff_exists.mp
      ((c.entryAt?_isSome index).trans (linked.links.occupied member))
    rw [found, Option.map_some, slotOf_of_entryAt? found]
  rw [linked.entries_eq, List.map_filterMap]
  exact (List.filterMap_congr total).trans (by simp)

theorem Linked.sound {c : Chain α} {order : List Nat} (linked : c.Linked order) : c.Sound := by
  unfold Sound
  rw [linked.slots_entries]
  exact linked

theorem sound_empty (id : ChainId) : ({ id } : Chain α).Sound :=
  Linked.sound (show Linked _ [] from ⟨rfl, rfl, trivial, List.nodup_nil, by simp [itemAt?], List.nodup_nil,
    by simp, rfl⟩)

@[simp] theorem entries_empty (id : ChainId) : ({ id } : Chain α).entries = [] := rfl

namespace Sound

variable {c : Chain α}

theorem nodup_slots (sound : c.Sound) : (c.entries.map slotOf).Nodup := Linked.nodup sound

theorem size_eq (sound : c.Sound) : c.size = c.entries.length := by
  simpa using Linked.size sound

theorem entryAt? (sound : c.Sound) {entry : Handle × α} (member : entry ∈ c.entries) :
    c.entryAt? (slotOf entry) = some entry := by
  rw [Linked.entries_eq sound] at member
  obtain ⟨index, _, found⟩ := List.mem_filterMap.mp member
  rw [slotOf_of_entryAt? found]
  exact found

theorem mem_iff (sound : c.Sound) (index : Nat) (entry : Handle × α) :
    c.entryAt? index = some entry ↔ entry ∈ c.entries ∧ slotOf entry = index := by
  constructor
  · intro found
    refine ⟨?_, slotOf_of_entryAt? found⟩
    rw [Linked.entries_eq sound]
    refine List.mem_filterMap.mpr ⟨index, (Linked.mem_iff sound index).mpr ?_, found⟩
    rw [← entryAt?_isSome, found]
    rfl
  · rintro ⟨member, rfl⟩
    exact sound.entryAt? member

theorem entry_unique (sound : c.Sound) {first second : Handle × α} (one : first ∈ c.entries)
    (other : second ∈ c.entries) (same : slotOf first = slotOf second) : first = second := by
  have found := sound.entryAt? one
  rw [same, sound.entryAt? other] at found
  exact (Option.some.inj found).symm

private theorem filterMap_slots (sound : c.Sound) {d : Chain α} (part : List (Handle × α))
    (inside : ∀ entry ∈ part, entry ∈ c.entries)
    (kept : ∀ entry ∈ part, d.entryAt? (slotOf entry) = c.entryAt? (slotOf entry)) :
    (part.map slotOf).filterMap d.entryAt? = part := by
  rw [List.filterMap_map]
  have same : ∀ entry ∈ part, (d.entryAt? ∘ slotOf) entry = some entry := fun entry member =>
    (kept entry member).trans (sound.entryAt? (inside entry member))
  exact (List.filterMap_congr same).trans (by simp)

/-- Slot at the front of a list of entries, where a new entry is put before them. -/
def frontSlot (entries : List (Handle × α)) : Option Nat := entries.head?.map slotOf

theorem insertAt (sound : c.Sound) {front back : List (Handle × α)} (split : c.entries = front ++ back)
    (item : α) :
    (c.insertAt (frontSlot back) item).2.Sound ∧
      (c.insertAt (frontSlot back) item).2.entries =
        front ++ ((c.insertAt (frontSlot back) item).1, item) :: back ∧
      (c.insertAt (frontSlot back) item).2.id = c.id ∧
      (c.insertAt (frontSlot back) item).1.index ∉ c.entries.map slotOf := by
  have linked : c.Linked (front.map slotOf ++ back.map slotOf) := by
    rw [← List.map_append, ← split]
    exact sound
  have place : (back.map slotOf).head? = frontSlot back := by simp [frontSlot]
  obtain ⟨new, fresh, after, entry, slot, id, others⟩ := linked.insertAt item
  rw [place] at after entry slot id others
  rw [← List.map_append, ← split] at fresh
  have apart : ∀ old ∈ c.entries, slotOf old ≠ new := fun old member same =>
    fresh (List.mem_map.mpr ⟨old, member, same⟩)
  have inFront : ∀ old ∈ front, old ∈ c.entries := fun old member => by simp [split, member]
  have inBack : ∀ old ∈ back, old ∈ c.entries := fun old member => by simp [split, member]
  refine ⟨after.sound, ?_, id, slot ▸ fresh⟩
  rw [after.entries_eq, List.filterMap_append, List.filterMap_cons, entry,
    sound.filterMap_slots front inFront fun old member => others _ (apart old (inFront old member)),
    sound.filterMap_slots back inBack fun old member => others _ (apart old (inBack old member))]

theorem vacate (sound : c.Sound) {front back : List (Handle × α)} {entry : Handle × α}
    (split : c.entries = front ++ entry :: back) :
    (c.vacate (slotOf entry)).Sound ∧ (c.vacate (slotOf entry)).entries = front ++ back ∧
      (c.vacate (slotOf entry)).id = c.id := by
  have linked : c.Linked (front.map slotOf ++ slotOf entry :: back.map slotOf) := by
    rw [← List.map_cons, ← List.map_append, ← split]
    exact sound
  obtain ⟨after, id, others⟩ := linked.vacate
  have nodup := List.nodup_cons.mp (List.nodup_middle.mp linked.nodup)
  have apart : ∀ old, old ∈ front ∨ old ∈ back → slotOf old ≠ slotOf entry := fun old member same =>
    nodup.1 (same ▸ by
      rw [← List.map_append]
      exact List.mem_map_of_mem (by simpa using member))
  refine ⟨after.sound, ?_, id⟩
  rw [after.entries_eq, List.filterMap_append,
    sound.filterMap_slots front (fun old member => by simp [split, member])
      fun old member => others _ (apart old (.inl member)),
    sound.filterMap_slots back (fun old member => by simp [split, member])
      fun old member => others _ (apart old (.inr member))]

theorem handles_nodup (sound : c.Sound) : (c.entries.map (·.1)).Nodup := by
  have nodup := sound.nodup_slots
  rw [show (slotOf : Handle × α → Nat) = (·.index) ∘ (·.1) from rfl, ← List.map_map] at nodup
  exact List.Nodup.of_map _ nodup

theorem index?_eq_some (sound : c.Sound) (h : Handle) (index : Nat) :
    c.index? h = some index ↔ h.index = index ∧ ∃ item, (h, item) ∈ c.entries := by
  have here : ∀ item, (h, item) ∈ c.entries ↔ c.entryAt? h.index = some (h, item) := fun item => by
    rw [sound.mem_iff]
    simp [slotOf]
  simp only [here]
  unfold Chain.index? Chain.entryAt? itemAt? handle generationAt
  obtain ⟨chain, slot, generation⟩ := h
  cases c.slots[slot]? with
  | none => simp
  | some found => cases item : found.item <;> (simp [item]; try grind)

theorem get?_eq_some (sound : c.Sound) (h : Handle) (item : α) :
    c.get? h = some item ↔ (h, item) ∈ c.entries := by
  unfold Chain.get?
  constructor
  · intro found
    obtain ⟨index, named, stored⟩ := Option.bind_eq_some_iff.mp found
    obtain ⟨rfl, other, member⟩ := (sound.index?_eq_some h index).mp named
    have entry := sound.entryAt? member
    simp only [Chain.entryAt?, slotOf, stored, Option.map_some, Option.some.injEq, Prod.mk.injEq] at entry
    rw [entry.2]
    exact member
  · intro member
    have entry := sound.entryAt? member
    simp only [Chain.entryAt?, slotOf, Option.map_eq_some_iff, Prod.mk.injEq] at entry
    obtain ⟨_, stored, _, rfl⟩ := entry
    rw [(sound.index?_eq_some h h.index).mpr ⟨rfl, _, member⟩]
    exact stored

theorem contains_iff (sound : c.Sound) (h : Handle) : c.contains h = true ↔ h ∈ c.entries.map (·.1) := by
  simp only [Chain.contains, Option.isSome_iff_exists, sound.index?_eq_some, List.mem_map, Prod.exists]
  grind

private theorem handle_slotOf (sound : c.Sound) {entry : Handle × α} (member : entry ∈ c.entries) :
    c.handle (slotOf entry) = entry.1 := by
  have found := sound.entryAt? member
  simp only [Chain.entryAt?, Option.map_eq_some_iff] at found
  obtain ⟨item, _, same⟩ := found
  exact congrArg (·.1) same

theorem chain_eq (sound : c.Sound) {entry : Handle × α} (member : entry ∈ c.entries) : entry.1.chain = c.id := by
  rw [← sound.handle_slotOf member]
  rfl

theorem first?_eq (sound : c.Sound) : c.first? = c.entries.head?.map (·.1) := by
  unfold Chain.first?
  rw [Linked.head sound, List.head?_map, Option.map_map]
  cases whole : c.entries with
  | nil => rfl
  | cons entry rest => simpa using sound.handle_slotOf (show entry ∈ c.entries by simp [whole])

theorem last?_eq (sound : c.Sound) : c.last? = c.entries.getLast?.map (·.1) := by
  unfold Chain.last?
  rw [Linked.tail sound, List.getLast?_map, Option.map_map]
  cases last : c.entries.getLast? with
  | none => rfl
  | some entry => simpa using sound.handle_slotOf (List.mem_of_getLast? last)

private theorem segment_entries (sound : c.Sound) {front back : List (Handle × α)}
    (split : c.entries = front ++ back) :
    c.Segment (front.map slotOf).getLast? (back.map slotOf) none := by
  have links := Linked.links sound
  rw [split, List.map_append] at links
  simpa using ((segment_append c none _ _ none).mp links).2

private theorem slot_links (sound : c.Sound) {front back : List (Handle × α)} {entry : Handle × α}
    (split : c.entries = front ++ entry :: back) :
    ∃ slot, c.slots[slotOf entry]? = some slot ∧ slot.prev = front.getLast?.map slotOf ∧
      slot.next = frontSlot back := by
  obtain ⟨slot, found, item, present, sides⟩ :
      ∃ slot, c.slots[slotOf entry]? = some slot ∧ ∃ item, slot.item = some item ∧ (slot.prev, slot.next) =
        ((front.map slotOf).getLast?, (back.map slotOf).head?.or none) := by
    simpa [linkAt?, Option.bind_eq_some_iff] using (sound.segment_entries split).1
  refine ⟨slot, found, ?_, ?_⟩
  · simpa using (Prod.mk.inj sides).1
  · simpa [frontSlot] using (Prod.mk.inj sides).2

/-- The neighbours of an entry in the list are the ones that the links lead to. -/
theorem neighbours (sound : c.Sound) {front back : List (Handle × α)} {entry : Handle × α}
    (split : c.entries = front ++ entry :: back) :
    c.prev? entry.1 = front.getLast?.map (·.1) ∧ c.next? entry.1 = back.head?.map (·.1) := by
  obtain ⟨slot, found, prev, next⟩ := sound.slot_links split
  have named : c.index? entry.1 = some (slotOf entry) :=
    (sound.index?_eq_some _ _).mpr ⟨rfl, entry.2, by simp [split]⟩
  constructor
  · simp only [Chain.prev?, named, Option.bind_eq_bind, Option.bind_some, found, prev]
    cases last : front.getLast? with
    | none => rfl
    | some other =>
      have member : other ∈ c.entries := by simp [split, List.mem_of_getLast? last]
      simpa using sound.handle_slotOf member
  · simp only [Chain.next?, named, Option.bind_eq_bind, Option.bind_some, found, next, frontSlot]
    cases first : back.head? with
    | none => rfl
    | some other =>
      have member : other ∈ c.entries := by simp [split, List.mem_of_head? first]
      simpa using sound.handle_slotOf member

theorem nextAt_eq (sound : c.Sound) {front back : List (Handle × α)} {entry : Handle × α}
    (split : c.entries = front ++ entry :: back) : c.nextAt (slotOf entry) = frontSlot back := by
  obtain ⟨slot, found, _, next⟩ := sound.slot_links split
  simp [nextAt, found, next]

/-- Entries from one to another, which follows it. -/
theorem entriesBetween (sound : c.Sound) {front middle back : List (Handle × α)} {last : Handle × α}
    (split : c.entries = front ++ (middle ++ last :: back)) :
    c.walk (some (slotOf last)) c.slots.size (frontSlot (middle ++ last :: back)) = middle ++ [last] := by
  have segment := sound.segment_entries split
  rw [List.map_append, List.map_cons] at segment
  have nodup := sound.nodup_slots
  simp only [split, List.map_append, List.map_cons] at nodup
  have before : ∀ index ∈ middle.map slotOf, some (slotOf last) ≠ some index := by
    intro index member same
    have apart := (List.nodup_append'.mp (List.nodup_append'.mp nodup).2.1).2.2 member
    exact apart (by simp [Option.some.inj same])
  have bound := Linked.length_le sound
  simp only [split, List.map_append, List.length_append, List.map_cons, List.length_cons, List.length_map] at bound
  have walked : c.walk (some (slotOf last)) c.slots.size _ = _ :=
    walk_segment segment before (by simp only [List.length_map]; omega)
  have inside : ∀ entry ∈ middle, entry ∈ c.entries := fun entry member => by simp [split, member]
  rw [sound.filterMap_slots middle inside fun _ _ => rfl] at walked
  have start : frontSlot (middle ++ last :: back) =
      (middle.map slotOf ++ slotOf last :: back.map slotOf).head?.or none := by
    simp [frontSlot, ← List.map_cons, ← List.map_append]
  rw [start, walked]
  obtain ⟨steps, more⟩ : ∃ steps, c.slots.size - (middle.map slotOf).length = steps + 1 :=
    ⟨c.slots.size - (middle.map slotOf).length - 1, by simp only [List.length_map]; omega⟩
  have entry := sound.entryAt? (show last ∈ c.entries by simp [split])
  simp only [Chain.entryAt?, itemAt?, Option.map_eq_some_iff, Option.bind_eq_bind, Option.bind_eq_some_iff] at entry
  obtain ⟨item, ⟨slot, found, present⟩, same⟩ := entry
  rw [more]
  simp [walk, found, present, same]

/-- Without an end the entries go on to the last one. -/
theorem entriesFrom (sound : c.Sound) {front back : List (Handle × α)} (split : c.entries = front ++ back)
    {last : Option Nat} (outside : ∀ entry ∈ back, last ≠ some (slotOf entry)) :
    c.walk last c.slots.size (frontSlot back) = back := by
  have segment := sound.segment_entries (show c.entries = front ++ (back ++ []) by simpa using split)
  rw [List.map_append] at segment
  have bound := Linked.length_le sound
  simp only [split, List.map_append, List.length_append, List.length_map] at bound
  have before : ∀ index ∈ back.map slotOf, last ≠ some index := by
    intro index member
    obtain ⟨entry, inside, rfl⟩ := List.mem_map.mp member
    exact outside entry inside
  have walked : c.walk last c.slots.size _ = _ :=
    walk_segment segment before (by simp only [List.length_map]; omega)
  rw [sound.filterMap_slots back (fun entry member => by simp [split, member]) fun _ _ => rfl] at walked
  have stop : ∀ fuel, c.walk last fuel none = [] := fun fuel => by cases fuel <;> rfl
  simpa [frontSlot, stop] using walked

/-- The items of a chain may change where they are. -/
theorem relabel (sound : c.Sound) {slots : Array (Slot α)} {change : Nat → α → α}
    (changed : ∀ index : Nat, slots[index]? = (c.slots[index]?).map fun slot =>
      { slot with item := slot.item.map (change index) }) :
    ({ c with slots } : Chain α).Sound ∧
      ({ c with slots } : Chain α).entries = c.entries.map fun entry => (entry.1, change (slotOf entry) entry.2) := by
  have items : ∀ index, ({ c with slots } : Chain α).itemAt? index = (c.itemAt? index).map (change index) := by
    intro index
    simp only [itemAt?, changed]
    cases c.slots[index]? <;> rfl
  have links : ∀ index, ({ c with slots } : Chain α).linkAt? index = c.linkAt? index := by
    intro index
    simp only [linkAt?, changed]
    cases c.slots[index]? with
    | none => rfl
    | some slot => cases item : slot.item <;> simp [item]
  have inside : ∀ index, index < slots.size ↔ index < c.slots.size := by
    intro index
    have same : (slots[index]?).isSome = true ↔ (c.slots[index]?).isSome = true := by
      rw [changed, Option.isSome_map]
    simpa only [isSome_getElem?] using same
  have handles : ∀ index, ({ c with slots } : Chain α).handle index = c.handle index := by
    intro index
    simp only [handle, generationAt, changed]
    cases c.slots[index]? <;> rfl
  have before : c.Linked (c.entries.map slotOf) := sound
  have linked : ({ c with slots } : Chain α).Linked (c.entries.map slotOf) := by
    refine ⟨before.head, before.tail, before.links.congr fun index _ => links index, before.nodup,
      fun index occupied => ?_, before.freeNodup, fun index => ?_, before.size⟩
    · exact before.occupied index (by simpa [items] using occupied)
    · rw [items, Option.map_eq_none_iff, inside]
      exact before.vacant index
  refine ⟨linked.sound, ?_⟩
  rw [linked.entries_eq, List.filterMap_map, ← List.filterMap_eq_map]
  refine List.filterMap_congr fun entry member => ?_
  have entryAt := sound.entryAt? member
  simp only [Chain.entryAt?, Option.map_eq_some_iff] at entryAt
  obtain ⟨item, stored, same⟩ := entryAt
  have handle : c.handle (slotOf entry) = entry.1 := congrArg (·.1) same
  have item : item = entry.2 := congrArg (·.2) same
  simp [Chain.entryAt?, items, stored, handles, handle, item]

theorem modifyAt (sound : c.Sound) (index : Nat) (f : α → α) :
    (c.modifyAt index f).Sound ∧ (c.modifyAt index f).entries =
      c.entries.map fun entry => (entry.1, if slotOf entry = index then f entry.2 else entry.2) := by
  have changed : ∀ other : Nat, (c.slots.modify index fun slot => { slot with item := slot.item.map f })[other]? =
      (c.slots[other]?).map fun slot =>
        { slot with item := slot.item.map fun item => if other = index then f item else item } := by
    intro other
    rw [Array.getElem?_modify]
    by_cases same : index = other
    · simp [same]
    · simp [same, Ne.symm same]
  exact sound.relabel changed

theorem mapItems (sound : c.Sound) (f : α → α) :
    (c.mapItems f).Sound ∧ (c.mapItems f).entries = c.entries.map fun entry => (entry.1, f entry.2) :=
  sound.relabel fun _ => Array.getElem?_map

end Sound

section Modify

variable (c : Chain α) (h : Handle) (f : α → α)

@[simp] theorem id_modify : (c.modify h f).id = c.id := by
  unfold modify
  cases c.index? h <;> rfl

/-- A handle names one slot and says which chain and generation it belongs to. -/
theorem handle_of_index? {c : Chain α} {h : Handle} {index : Nat} (found : c.index? h = some index) :
    c.handle index = h := by
  obtain ⟨chain, slot, generation⟩ := h
  unfold index? at found
  unfold handle generationAt
  grind

theorem slots_modify (index : Nat) :
    (c.modify h f).slots[index]? = (c.slots[index]?).map fun slot =>
      if c.index? h = some index then { slot with item := slot.item.map f } else slot := by
  unfold modify
  cases found : c.index? h with
  | none => simp
  | some place =>
    simp only [modifyAt, Array.getElem?_modify, Option.some.injEq]
    split_ifs <;> simp

@[simp] theorem index?_modify (other : Handle) : (c.modify h f).index? other = c.index? other := by
  unfold index?
  rw [id_modify, slots_modify]
  cases c.slots[other.index]? with
  | none => rfl
  | some slot =>
    simp only [Option.map_some]
    split_ifs <;> simp_all

@[simp] theorem handle_modify (index : Nat) : (c.modify h f).handle index = c.handle index := by
  unfold handle generationAt
  rw [id_modify, slots_modify]
  cases c.slots[index]? with
  | none => rfl
  | some slot =>
    simp only [Option.map_some]
    split_ifs <;> rfl

theorem get?_modify (other : Handle) :
    (c.modify h f).get? other = if other = h then (c.get? h).map f else c.get? other := by
  unfold get? itemAt?
  simp only [index?_modify]
  cases found : c.index? other with
  | none => by_cases same : other = h <;> simp_all
  | some index =>
    have named := handle_of_index? found
    simp only [Option.bind_eq_bind, Option.bind_some, slots_modify]
    by_cases same : other = h
    · subst same
      simp only [found, Option.bind_some, if_pos]
      cases c.slots[index]? <;> rfl
    · have apart : c.index? h ≠ some index := fun here => same (named.symm.trans (handle_of_index? here))
      simp only [if_neg apart, if_neg same]
      cases c.slots[index]? <;> rfl

theorem Sound.modify {c : Chain α} (sound : c.Sound) (h : Handle) (f : α → α) :
    (c.modify h f).Sound ∧ (c.modify h f).entries =
      c.entries.map fun entry => if entry.1 = h then (h, f entry.2) else entry := by
  unfold Chain.modify
  cases found : c.index? h with
  | none =>
    refine ⟨sound, ?_⟩
    have absent : ∀ entry ∈ c.entries, entry.1 ≠ h := by
      intro entry member same
      have named := (sound.index?_eq_some h h.index).mpr ⟨rfl, entry.2, same ▸ member⟩
      simp [found] at named
    exact (List.map_id _).symm.trans (List.map_congr_left fun entry member => by simp [absent entry member])
  | some index =>
    obtain ⟨rfl, item, member⟩ := (sound.index?_eq_some h index).mp found
    refine ⟨(sound.modifyAt h.index f).1, (sound.modifyAt h.index f).2.trans ?_⟩
    refine List.map_congr_left fun entry inside => ?_
    by_cases same : entry.1 = h
    · simp [same, slotOf]
    · have apart : slotOf entry ≠ h.index := fun slot =>
        same (congrArg (·.1) (sound.entry_unique inside member slot))
      simp [same, apart]

end Modify

end YaraRules.Chain

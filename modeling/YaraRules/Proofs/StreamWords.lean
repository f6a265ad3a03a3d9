import YaraRules.Proofs.StreamArrivals

/-! Words that changes of a stream leave alone. A token that is written by its own literal
stays as it is whatever is put in, taken out or exchanged around it. Next to tokens of the
code nothing can go wrong: tokens can be put there, and rows can be erased. -/

namespace YaraRules.TokenStream

variable {s middle after source : TokenStream} {h : Handle} {a b : Token} {kept : List Handle}

/-- A token that is written by its own literal is stored under the handle. -/
def Tells (s : TokenStream) (h : Handle) (a : Token) : Prop := s.get? h = some a ∧ Plain a

/-- Whatever is told under the handles is still told. -/
def Spares (s after : TokenStream) (kept : List Handle) : Prop := ∀ h ∈ kept, ∀ a, s.Tells h a → after.Tells h a

namespace Spares

theorem refl (s : TokenStream) (kept : List Handle) : Spares s s kept := fun _ _ _ tells => tells

theorem trans (first : Spares s middle kept) (second : Spares middle after kept) : Spares s after kept :=
  fun h member a tells => second h member a (first h member a tells)

theorem fewer {few : List Handle} (spares : Spares s after kept) (fewer : few ⊆ kept) : Spares s after few :=
  fun h member => spares h (fewer member)

end Spares

/-- Every token is still there. -/
def Grows (s after : TokenStream) : Prop := ∀ h a, s.get? h = some a → after.get? h = some a

namespace Grows

theorem refl (s : TokenStream) : Grows s s := fun _ _ stored => stored

theorem trans (first : Grows s middle) (second : Grows middle after) : Grows s after :=
  fun h a stored => second h a (first h a stored)

theorem tells (grows : Grows s after) (tells : s.Tells h a) : after.Tells h a := ⟨grows h a tells.1, tells.2⟩

theorem spares (grows : Grows s after) (kept : List Handle) : Spares s after kept :=
  fun _ _ _ tells => grows.tells tells

theorem live (grows : Grows s after) {anchor : Option Handle} (live : ∀ h ∈ anchor, (s.get? h).isSome) :
    ∀ h ∈ anchor, (after.get? h).isSome := fun h member => by
  obtain ⟨a, stored⟩ := Option.isSome_iff_exists.mp (live h member)
  exact Option.isSome_of_eq_some (grows h a stored)

end Grows

theorem Tells.text (tells : s.Tells h a) : s.text h = writtenAs a.kind a.literal.text := by
  rw [text_eq _ tells.1, textOf_plain _ tells.2]

/-- A token that may have become a copy is the same if it was no alias. -/
theorem Kept.of_plain (same : Kept s h a b) (plain : Plain a) : b = a := by
  obtain ⟨_, literal, rfl, origin⟩ := same
  obtain rfl : literal = a.literal := origin.elim (fun same => same) fun stands => stands.of_plain plain
  rfl

/-! ### Streams at any depth -/

theorem Sound.get?_subset (sound : s.Sound) (sound' : after.Sound) (distinct : s.ids.Nodup)
    (distinct' : after.ids.Nodup) (own : after.chain.id = s.chain.id) (subset : s.view ⊆ after.view)
    (stored : s.get? h = some a) : after.get? h = some a := by
  obtain ⟨piece, member, here⟩ := (sound.get?_view distinct).mp stored
  exact (sound'.get?_view distinct').mpr ⟨piece, subset member, own ▸ here⟩

private theorem get?_chains (distinct : s.ids.Nodup) :
    s.get? h = some a ↔ ∃ c ∈ s.chains, c.id = h.chain ∧ c.get? h = some a := by
  rw [get?_eq]
  constructor
  · intro stored
    obtain ⟨c, held, found⟩ := Option.bind_eq_some_iff.mp stored
    obtain ⟨member, own⟩ := mem_chains_of_chainOf? held
    exact ⟨c, member, own, found⟩
  · rintro ⟨c, member, own, found⟩
    rw [← own, chainOf?_of_mem distinct member]
    exact found

private theorem get?_around {owner owner' : TokenStream} {front back : List (Chain Token)} (distinct : s.ids.Nodup)
    (distinct' : after.ids.Nodup) (split : s.chains = front ++ (owner.chains ++ back))
    (split' : after.chains = front ++ (owner'.chains ++ back)) (within : owner.get? h = some a → owner'.get? h = some a)
    (stored : s.get? h = some a) : after.get? h = some a := by
  have inner {root owner : TokenStream} (split : root.chains = front ++ (owner.chains ++ back))
    (distinct : root.ids.Nodup) :
      owner.ids.Nodup := by
    rw [ids_eq_chains, split, List.map_append, List.map_append, ← ids_eq_chains owner] at distinct
    exact (List.nodup_append'.mp (List.nodup_append'.mp distinct).2.1).1
  obtain ⟨c, member, own, found⟩ := (get?_chains distinct).mp stored
  rw [split, List.mem_append, List.mem_append] at member
  rw [get?_chains distinct', split']
  rcases member with early | here | late
  · exact ⟨c, by simp [early], own, found⟩
  · have stored' := within ((get?_chains (inner split distinct)).mpr ⟨c, here, own, found⟩)
    obtain ⟨c', member, own, found⟩ := (get?_chains (inner split' distinct')).mp stored'
    exact ⟨c', by simp [member], own, found⟩
  · exact ⟨c, by simp [late], own, found⟩

/-! ### Tokens that are put in -/

private theorem Tidy.get?_inserted (tidy : s.Tidy) {id : ChainId} {owner owner' : TokenStream}
    (held : s.owner? id = some owner) (tidy' : (s.modifyOwner id fun _ => owner').Tidy) (sound : owner'.Sound)
    (ids : owner'.ids = owner.ids) {front back : List Piece} {new : Handle} {token : Token}
    (split : owner.view = front ++ back) (view : owner'.view = front ++ (new, token, none) ::
    back) : (s.modifyOwner id fun _ => owner').get? new = some token ∧ Grows s (s.modifyOwner id fun _ => owner') := by
  have own := id_of_ids ids
  have distinct := distinct_owner tidy.distinct held
  have found := owner?_modifyOwner held (f := fun _ => owner') (own.trans (id_of_owner? held))
  have listed : (new, token, none) ∈ owner'.view := by simp [view]
  constructor
  · have top : new.chain = id := (sound.chain_of_view listed).trans (own.trans (id_of_owner? held))
    have stored : owner'.get? new = some token := (sound.get?_view (ids ▸ distinct)).mpr ⟨_, listed, .inl ⟨rfl, rfl⟩⟩
    rw [get?_top owner' (sound.chain_of_view listed)] at stored
    rw [TokenStream.get?, top, found]
    exact stored
  · intro h a stored
    obtain ⟨ahead, behind, parts, changed⟩ := chains_modifyOwner held
    refine get?_around tidy.distinct tidy'.distinct parts (changed _) (fun inside => ?_) stored
    refine (tidy.sound.owner? held).get?_subset sound distinct (ids ▸ distinct) own ?_ inside
    rw [split, view]
    exact List.append_subset.mpr ⟨List.subset_append_left _ _,
      List.subset_append_of_subset_right _ (List.subset_cons_self _ _)⟩

private theorem Sound.get?_new (sound : s.Sound) (sound' : after.Sound) (distinct : s.ids.Nodup)
    (distinct' : after.ids.Nodup) (own : after.chain.id = s.chain.id) {front back : List Piece} {new : Handle}
    {token : Token} (split : s.view = front ++ back) (view : after.view = front ++ (new, token, none) :: back)
    (stored : after.get? h = some a) : a = token ∨ s.get? h = some a := by
  obtain ⟨piece, member, here⟩ := (sound'.get?_view distinct').mp stored
  rw [view, List.mem_append, List.mem_cons] at member
  rcases member with early | rfl | late
  · exact .inr ((sound.get?_view distinct).mpr ⟨piece, by simp [split, early], own ▸ here⟩)
  · rcases here with ⟨_, same⟩ | ⟨_, _, none, _⟩
    · exact .inl same.symm
    · cases none
  · exact .inr ((sound.get?_view distinct).mpr ⟨piece, by simp [split, late], own ▸ here⟩)

private theorem Tidy.inserted_get? (tidy : s.Tidy) {id : ChainId} {owner owner' : TokenStream}
    (held : s.owner? id = some owner) (tidy' : (s.modifyOwner id fun _ => owner').Tidy) (sound : owner'.Sound)
    (ids : owner'.ids = owner.ids) {front back : List Piece} {new : Handle} {token : Token}
    (split : owner.view = front ++ back) (view : owner'.view = front ++ (new, token, none) :: back)
    (stored : (s.modifyOwner id fun _ => owner').get? h = some a) : a = token ∨ s.get? h = some a := by
  refine or_iff_not_imp_left.mpr fun other => ?_
  have distinct := distinct_owner tidy.distinct held
  obtain ⟨ahead, behind, parts, changed⟩ := chains_modifyOwner held
  refine get?_around tidy'.distinct tidy.distinct (changed _) parts (fun inside => ?_) stored
  exact ((tidy.sound.owner? held).get?_new sound distinct (ids ▸ distinct)
    (id_of_ids ids) split view inside).resolve_left other

theorem Tidy.get?_insertBefore (tidy : s.Tidy) {before new : Handle} {token : Token}
    (done : s.insertBefore before token = .ok (new, after)) :
    after.get? new = some token ∧ Grows s after := by
  obtain ⟨tidy', _⟩ := tidy.insertBefore_spots done
  obtain ⟨_, _, owner, owner', front, piece, back, held, rfl, ids, sound, split, rfl, view⟩ :=
    tidy.sound.insertBefore_deep done
  exact tidy.get?_inserted held tidy' sound ids split view

theorem Tidy.get?_insertAfter (tidy : s.Tidy) {before new : Handle} {token : Token}
    (done : s.insertAfter before token = .ok (new, after)) :
    after.get? new = some token ∧ Grows s after := by
  obtain ⟨tidy', _⟩ := tidy.insertAfter_spots done
  obtain ⟨_, _, owner, owner', front, piece, back, held, rfl, ids, sound, split, rfl, view⟩ :=
    tidy.sound.insertAfter_deep done
  have split' : owner.view = (front ++ [piece]) ++ back := by simp [split]
  have view' : owner'.view = (front ++ [piece]) ++ (new, token, none) :: back := by simp [view]
  exact tidy.get?_inserted held tidy' sound ids split' view'

theorem Tidy.get?_push (tidy : s.Tidy) (token : Token) :
    (s.push token).2.get? (s.push token).1 = some token ∧ Grows s (s.push token).2 := by
  obtain ⟨_, view, id, _⟩ := tidy.sound.push token
  obtain ⟨tidy', _⟩ := tidy.push token
  have listed : ((s.push token).1, token, none) ∈ (s.push token).2.view := by simp [view]
  refine ⟨(tidy'.sound.get?_view tidy'.distinct).mpr ⟨_, listed, .inl ⟨rfl, rfl⟩⟩, fun h a stored => ?_⟩
  refine tidy.sound.get?_subset tidy'.sound tidy.distinct tidy'.distinct id ?_ stored
  rw [view]
  exact List.subset_append_left _ _

theorem Tidy.insertBefore_get? (tidy : s.Tidy) {before new : Handle} {token : Token}
    (done : s.insertBefore before token = .ok (new, after))
    (stored : after.get? h = some a) : a = token ∨ s.get? h = some a := by
  obtain ⟨tidy', _⟩ := tidy.insertBefore_spots done
  obtain ⟨_, _, owner, owner', front, piece, back, held, rfl, ids, sound, split, rfl, view⟩ :=
    tidy.sound.insertBefore_deep done
  exact tidy.inserted_get? held tidy' sound ids split view stored

theorem Tidy.insertAfter_get? (tidy : s.Tidy) {before new : Handle} {token : Token}
    (done : s.insertAfter before token = .ok (new, after))
    (stored : after.get? h = some a) : a = token ∨ s.get? h = some a := by
  obtain ⟨tidy', _⟩ := tidy.insertAfter_spots done
  obtain ⟨_, _, owner, owner', front, piece, back, held, rfl, ids, sound, split, rfl, view⟩ :=
    tidy.sound.insertAfter_deep done
  have split' : owner.view = (front ++ [piece]) ++ back := by simp [split]
  have view' : owner'.view = (front ++ [piece]) ++ (new, token, none) :: back := by simp [view]
  exact tidy.inserted_get? held tidy' sound ids split' view' stored

theorem Tidy.push_get? (tidy : s.Tidy) {token : Token} (stored : (s.push token).2.get? h = some a) :
    a = token ∨ s.get? h = some a := by
  obtain ⟨_, view, id, _⟩ := tidy.sound.push token
  obtain ⟨tidy', _⟩ := tidy.push token
  exact tidy.sound.get?_new tidy'.sound tidy.distinct tidy'.distinct id (List.append_nil s.view).symm view stored

private theorem insertInto_ok {position : Handle} (place : Chain Token → Nat → Option Nat) (token : Token)
    (live : (s.get? position).isSome) : ∃ new after, s.insertInto position place token = .ok (new, after) := by
  obtain ⟨a, stored⟩ := Option.isSome_iff_exists.mp live
  obtain ⟨owner, held, found⟩ := Option.bind_eq_some_iff.mp stored
  obtain ⟨index, named, _⟩ := Option.bind_eq_some_iff.mp found
  simp [insertInto, checkedOwner, checkedIndex, held, named, bind, Except.bind, pure, Except.pure]

/-- What is read in a stream can be looked up. -/
theorem Tidy.get?_of_spots (tidy : s.Tidy) {spot : Spot} (member : spot ∈ s.spots) : (s.get? spot.1).isSome := by
  obtain ⟨ahead, behind, split⟩ := List.append_of_mem member
  obtain ⟨owner, front, piece, back, _, _, held, view, rfl, _⟩ := tidy.located split
  rw [(tidy.sound.beside held view).2]
  rfl

/-- A token can be put in front of any other. -/
theorem insertBefore_ok {before : Handle} (token : Token) (live : (s.get? before).isSome) :
    ∃ new after, s.insertBefore before token = .ok (new, after) := insertInto_ok _ token live

theorem insertAfter_ok {before : Handle} (token : Token) (live : (s.get? before).isSome) :
    ∃ new after, s.insertAfter before token = .ok (new, after) := insertInto_ok _ token live

/-! ### Rows that are erased -/

theorem Sound.erase_distinct (sound : s.Sound) (distinct : s.ids.Nodup) {first last : Handle}
    (done : s.erase first last = .ok after) : after.ids.Nodup := by
  obtain ⟨_, counted, _⟩ := sound.erase_deep distinct done
  exact List.nodup_iff_count_le_one.mpr fun id => Nat.le_trans (counted id) (List.nodup_iff_count_le_one.mp distinct id)

/-- Before a range goes, aliases of what is in it become copies; then all that is still there is as it was. -/
theorem Sound.get?_detached (whole : s.Sound) (once' : s.ids.Nodup) {first last : Handle}
    (done : s.erase first last = .ok after) :
    ∃ handles, s.rangeHandles first last = .ok handles ∧
      ∀ h b, after.get? h = some b → h ∉ handles ∧ (s.detachAliases handles).get? h = some b := by
  have distinct' := whole.erase_distinct once' done
  obtain ⟨owner, settled, held, handles, owned, found, rfl, calm, there, alike, rfl⟩ := whole.erase_owner once' done
  have distinct := calm.alike.ids_eq ▸ once'
  obtain ⟨front, middle, back, split, rfl, spans⟩ := (whole.owner? owned).rangeHandles (id_of_owner? owned).symm found
  have once := (whole.owner? owned).handles_nodup
  have stays := alike.stays
  rw [split] at stays once
  obtain ⟨front', rest, split', before, others⟩ := forall₂_parts stays
  obtain ⟨middle', back', rfl, gone, behind⟩ := forall₂_parts others
  obtain ⟨sound, view, id, _⟩ := (calm.sound.owner? there).dropAll split'
  rw [handles_of_stays gone] at sound view id
  have found' := owner?_modifyOwner there (f := fun _ => held.dropAll (middle.map (·.1)))
    (id.trans (id_of_owner? there))
  refine ⟨_, (rangeHandles_owner owned).trans found, fun h b stored => ⟨fun inside => ?_, ?_⟩⟩
  · -- What is found in the stream that the range was in stands before the range or behind it.
    obtain ⟨piece, member, rfl⟩ := List.mem_map.mp inside
    have own : piece.1.chain = first.chain :=
      ((whole.owner? owned).chain_of_view (by simp [split, member])).trans (id_of_owner? owned)
    rw [TokenStream.get?, own, found'] at stored
    have listed := (sound.chain.get?_eq_some _ _).mp stored
    have around : List.Forall₂ (Stays s) (front ++ back) (front' ++ back') := List.rel_append before behind
    have left : piece.1 ∈ (front ++ back).map (·.1) := by
      rw [← handles_of_stays around, ← view, ← handles_view, entries_eq]
      exact List.mem_map_of_mem listed
    simp only [List.map_append] at once left
    obtain ⟨_, others, apart⟩ := List.nodup_append'.mp once
    rcases List.mem_append.mp left with early | late
    · exact apart early (List.mem_append_left _ inside)
    · exact (List.nodup_append'.mp others).2.2 inside late
  · obtain ⟨ahead, behind, parts, changed⟩ := chains_modifyOwner there
    refine get?_around distinct' distinct (changed _) parts (fun inside => ?_) stored
    refine sound.get?_subset (calm.sound.owner? there) (distinct_owner distinct' found')
      (distinct_owner distinct there) id.symm ?_
      inside
    rw [view, split']
    exact List.append_subset.mpr ⟨List.subset_append_left _ _,
      List.subset_append_of_subset_right _ (List.subset_append_right _ _)⟩

/-- Nothing that is still there was changed, but for aliases that became copies. -/
theorem Tidy.get?_erase (tidy : s.Tidy) {first last : Handle} (done : s.erase first last = .ok after)
    (stored : after.get? h = some b) : ∃ a, Kept s h a b := by
  obtain ⟨handles, _, left⟩ := tidy.sound.get?_detached tidy.distinct done
  have settled := (Settled.refl tidy.sound tidy.distinct).detachAliases tidy.sound tidy.distinct handles
  have pair := settled.alike.get? tidy.sound settled.sound h
  rw [(left h b stored).2] at pair
  obtain ⟨a, _, kept⟩ := some_of_rel pair
  exact ⟨a, kept⟩

/-- Words of the code are not changed when something else is erased. -/
theorem Tidy.erase_spares (tidy : s.Tidy) {first last : Handle} (done : s.erase first last = .ok after)
    (left : kept ⊆ after.code) : Spares s after kept := by
  intro h member a tells
  obtain ⟨b, stored, _⟩ := (tidy.erase_spots done).1.get?_of_code (left member)
  obtain ⟨a', same⟩ := tidy.get?_erase done stored
  obtain rfl : a = a' := Option.some.inj (tells.1.symm.trans same.1)
  rw [same.of_plain tells.2] at stored
  exact ⟨stored, tells.2⟩

private theorem Spanned.erase_ok {first last : Handle} {handles : List Handle} (spanned : s.Spanned first last handles)
    (sound : s.Sound) : ∃ after, s.erase first last = .ok after := by
  obtain ⟨owner, held, inside, begins, ends⟩ := spanned
  have found := (sound.owner? held).rangeHandles_part inside begins ends
  simp [TokenStream.erase, checkedOwner, held, found, bind, Except.bind, pure, Except.pure]

/-- A range goes on to the token that comes next. -/
private theorem Spanned.next {first last next : Handle} {handles : List Handle} (spanned : s.Spanned first last handles)
    (sound : s.Sound) (follows : s.next? last = some next) : s.Spanned first next (handles ++ [next]) := by
  have own := (spanned.stored sound (List.mem_of_getLast? spanned.choose_spec.2.2.2)).1
  obtain ⟨owner, held, ⟨ahead, behind, whole⟩, begins, ends⟩ := spanned
  obtain ⟨most, rfl⟩ := List.getLast?_eq_some_iff.mp ends
  rw [handles_view] at whole
  obtain ⟨front, back, view, before, rfl⟩ := List.map_eq_append_iff.mp whole.symm
  obtain ⟨piece, pieces, rfl, named⟩ : ∃ piece pieces, front = pieces ++ [piece] ∧ piece.1 = last := by
    rw [← List.append_assoc] at before
    obtain ⟨pieces, one, rfl, _, last⟩ := List.map_eq_append_iff.mp before
    obtain ⟨piece, rfl, named⟩ := List.map_eq_singleton_iff.mp last
    exact ⟨piece, pieces, rfl, named⟩
  subst named
  have split : owner.view = pieces ++ piece :: back := by simp [view]
  have next' := (sound.beside (own ▸ held) split).1
  rw [follows] at next'
  obtain ⟨other, more, rfl⟩ : ∃ other more, back = other :: more := by
    cases back with
    | nil => cases next'
    | cons other more => exact ⟨other, more, rfl⟩
  obtain rfl : next = other.1 := by simpa using next'
  refine ⟨owner, held, ?_, by simpa using begins, by simp⟩
  rw [handles_view]
  exact ⟨ahead, more.map (·.1), by simpa using whole⟩

/-- A row in one stream lies in the range from its first token to its last, or to the line break behind that. -/
theorem Tidy.spanned_line (tidy : s.Tidy) {row : List Handle} {first last stop : Handle}
    (begins : row.head? = some first) (ends : row.getLast? = some last) {id : ChainId} (chain : ∀ h ∈ row, h.chain = id)
    (listed : row.Sublist s.code) (stops : stop = last ∨ stop = s.lineEnd last) : ∃ handles,
    s.Spanned first stop handles ∧ row ⊆ handles := by
  obtain ⟨handles, spanned, within⟩ := tidy.spanned begins ends chain listed
  have ending : stop = last ∨ s.next? last = some stop := by
    refine stops.elim .inl fun line => ?_
    unfold TokenStream.lineEnd at line
    split at line
    next h follows =>
      split_ifs at line
      · exact .inr (line ▸ follows)
      · exact .inl line
    next => exact .inl line
  rcases ending with rfl | follows
  · exact ⟨handles, spanned, within.subset⟩
  · exact ⟨_, spanned.next tidy.sound follows, List.subset_append_of_subset_left _ within.subset⟩

/-- A row in one stream can be erased, with the line break behind it or without. -/
theorem Tidy.erase_ok (tidy : s.Tidy) {row : List Handle} {first last stop : Handle} (begins : row.head? = some first)
    (ends : row.getLast? = some last) {id : ChainId} (chain : ∀ h ∈ row, h.chain = id) (listed : row.Sublist s.code)
    (stops : stop = last ∨ stop = s.lineEnd last) : ∃ after, s.erase first stop = .ok after := by
  obtain ⟨_, spanned, _⟩ := tidy.spanned_line begins ends chain listed stops
  exact spanned.erase_ok tidy.sound

/-! ### Rows that are exchanged -/

/-- Words of the code are not changed when something else is exchanged. -/
theorem Tidy.exchange_spares (tidy : s.Tidy) (lone : source.Lone) (nonempty : source.view ≠ []) {first last : Handle}
    {names : Renaming} (done : (s.exchange first last source).1 = .ok (names, after)) (tidy' : after.Tidy)
    (left : kept ⊆ after.code) : Spares s after kept := by
  have own : first.chain = s.chain.id := by
    obtain ⟨_, _, moved, _⟩ := exchange_steps done
    obtain ⟨_, _, _, _, _, _, _, _, _, own⟩ := tidy.moveAll lone nonempty moved
    exact own first rfl
  obtain ⟨joined, front, new, gone, back, exchange, _⟩ := tidy.exchange_parts lone nonempty own done
  intro h member a tells
  obtain ⟨b, stored, _⟩ := tidy'.get?_of_code (left member)
  obtain ⟨a', there, same⟩ := exchange.narrowed.get? stored
  obtain rfl : a = a' := Option.some.inj ((exchange.received.get? tells.1).symm.trans there)
  rw [same.of_plain tells.2] at stored
  exact ⟨stored, tells.2⟩

end YaraRules.TokenStream

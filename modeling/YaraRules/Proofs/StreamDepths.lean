import YaraRules.Proofs.StreamInsertions

/-! Changes at any depth. A handle may lead into a stream that is nested in the one
that is asked, and what is done there is done to the owner of the handle alone: all
chains around it stay where they are. So each operation has one statement on the
stream that holds the token, whatever stream the handle was given to. -/

namespace YaraRules.TokenStream

mutual

/-- Chains of a stream and of all that are nested in it. -/
def chains : TokenStream → List (Chain Token)
  | ⟨chain, nested⟩ => chain :: chainsAmong nested

def chainsAmong : List (Nat × Option TokenStream) → List (Chain Token)
  | [] => []
  | (_, some s) :: rest => chains s ++ chainsAmong rest
  | (_, none) :: rest => chainsAmong rest

end

theorem chains_eq (s : TokenStream) : s.chains = s.chain :: chainsAmong s.nested := by
  cases s
  rfl

theorem chainsAmong_append (front back : List (Nat × Option TokenStream)) :
    chainsAmong (front ++ back) = chainsAmong front ++ chainsAmong back := by
  induction front with
  | nil => rfl
  | cons place rest ih =>
    obtain ⟨index, held⟩ := place
    cases held <;> simp [chainsAmong, ih]

mutual

theorem ids_eq_chains : ∀ s : TokenStream, s.ids = s.chains.map (·.id)
  | ⟨chain, nested⟩ => by simp [ids, chains, idsAmong_eq_chains nested]

private theorem idsAmong_eq_chains : ∀ nested : List (Nat × Option TokenStream),
    idsAmong nested = (chainsAmong nested).map (·.id)
  | [] => rfl
  | (_, some s) :: rest => by simp [idsAmong, chainsAmong, ids_eq_chains s, idsAmong_eq_chains rest]
  | (_, none) :: rest => by simp [idsAmong, chainsAmong, idsAmong_eq_chains rest]

end

mutual

/-- The chains of an owner stand together, and a change of the owner changes nothing around them. -/
theorem chains_modifyOwner {id : ChainId} : ∀ {s owner : TokenStream}, s.owner? id = some owner →
    ∃ front back, s.chains = front ++ (owner.chains ++ back) ∧
      ∀ f, (s.modifyOwner id f).chains = front ++ ((f owner).chains ++ back)
  | ⟨chain, nested⟩, owner, held => by
    unfold owner? at held
    unfold modifyOwner
    split_ifs at held with here
    · cases held
      exact ⟨[], [], by simp, fun f => by simp [here]⟩
    · obtain ⟨front, back, split, changed⟩ := chainsAmong_modifyOwner held
      exact ⟨chain :: front, back, by simp [chains, split], fun f => by simp [here, chains, changed f]⟩

private theorem chainsAmong_modifyOwner {id : ChainId} : ∀ {nested : List (Nat × Option TokenStream)}
    {owner : TokenStream},
    ownerAmong? id nested = some owner →
    ∃ front back, chainsAmong nested = front ++ (owner.chains ++ back) ∧
      ∀ f, chainsAmong (modifyOwnerAmong id f nested) = front ++ ((f owner).chains ++ back)
  | [], _, held => by cases held
  | (index, some s) :: rest, owner, held => by
    unfold ownerAmong? at held
    unfold modifyOwnerAmong
    cases inner : s.owner? id with
    | none =>
      obtain ⟨front, back, split, changed⟩ := chainsAmong_modifyOwner
        (show ownerAmong? id rest = some owner by simpa [inner] using held)
      exact ⟨s.chains ++ front, back, by simp [chainsAmong, split], fun f => by simp [chainsAmong, changed f]⟩
    | some found =>
      obtain rfl : found = owner := by simpa [inner] using held
      obtain ⟨front, back, split, changed⟩ := chains_modifyOwner inner
      exact ⟨front, back ++ chainsAmong rest, by simp [chainsAmong, split], fun f => by simp [chainsAmong, changed f]⟩
  | (_, none) :: rest, owner, held => by
    obtain ⟨front, back, split, changed⟩ := chainsAmong_modifyOwner
      (show ownerAmong? id rest = some owner by simpa [ownerAmong?] using held)
    exact ⟨front, back,
      by simpa [chainsAmong] using split, fun f => by simpa [modifyOwnerAmong, chainsAmong] using changed f⟩

end

theorem chains_of_owner? {s owner : TokenStream} {id : ChainId} (held : s.owner? id = some owner) {c : Chain Token}
    (member : c ∈ owner.chains) : c ∈ s.chains := by
  obtain ⟨front, back, split, _⟩ := chains_modifyOwner held
  simp [split, member]

theorem mem_chains_of_chainOf? {s : TokenStream} {id : ChainId} {c : Chain Token} (held : s.chainOf? id = some c) :
    c ∈ s.chains ∧ c.id = id := by
  obtain ⟨owner, found, rfl⟩ := Option.map_eq_some_iff.mp held
  exact ⟨chains_of_owner? found (by simp [chains_eq]), id_of_owner? found⟩

/-- Identities count as they do in the owner. -/
theorem count_modifyOwner {s owner : TokenStream} {id : ChainId} (held : s.owner? id = some owner)
    (f : TokenStream → TokenStream) (other : ChainId) :
    (s.modifyOwner id f).ids.count other + owner.ids.count other = s.ids.count other + (f owner).ids.count other := by
  obtain ⟨front, back, split, changed⟩ := chains_modifyOwner held
  simp only [ids_eq_chains, split, changed f, List.map_append, List.count_append]
  omega

theorem ids_modifyOwner {s owner : TokenStream} {id : ChainId} (held : s.owner? id = some owner)
    {f : TokenStream → TokenStream} (same : (f owner).ids = owner.ids) : (s.modifyOwner id f).ids = s.ids := by
  obtain ⟨front, back, split, changed⟩ := chains_modifyOwner held
  simp only [ids_eq_chains, split, changed f, List.map_append] at same ⊢
  rw [same]

theorem distinct_owner {s owner : TokenStream} {id : ChainId} (distinct : s.ids.Nodup)
    (held : s.owner? id = some owner) : owner.ids.Nodup := by
  obtain ⟨front, back, split, _⟩ := chains_modifyOwner held
  rw [ids_eq_chains, split, List.map_append, List.map_append, ← ids_eq_chains owner] at distinct
  exact (List.nodup_append'.mp (List.nodup_append'.mp distinct).2.1).1

mutual

theorem owner?_of_mem_ids {id : ChainId} : ∀ {s : TokenStream}, id ∈ s.ids → ∃ owner, s.owner? id = some owner
  | ⟨chain, nested⟩, member => by
    unfold owner?
    by_cases here : chain.id = id
    · exact ⟨_, if_pos here⟩
    · rw [if_neg here]
      exact ownerAmong?_of_mem_ids ((List.mem_cons.mp member).resolve_left (Ne.symm here))

private theorem ownerAmong?_of_mem_ids {id : ChainId} :
    ∀ {nested : List (Nat × Option TokenStream)}, id ∈ idsAmong nested →
    ∃ owner, ownerAmong? id nested = some owner
  | (_, some s) :: rest, member => by
    unfold ownerAmong?
    cases inner : s.owner? id with
    | some found => exact ⟨found, rfl⟩
    | none =>
      refine ownerAmong?_of_mem_ids ((List.mem_append.mp member).resolve_left fun early => ?_)
      obtain ⟨owner, found⟩ := owner?_of_mem_ids early
      simp [inner] at found
  | (_, none) :: rest, member => by
    unfold ownerAmong?
    exact ownerAmong?_of_mem_ids member

end

/-- With distinct identities a chain is found by its own. -/
theorem chainOf?_of_mem {s : TokenStream} (distinct : s.ids.Nodup) {c : Chain Token} (member : c ∈ s.chains) :
    s.chainOf? c.id = some c := by
  rw [ids_eq_chains] at distinct
  obtain ⟨owner, held⟩ : ∃ owner, s.owner? c.id = some owner := by
    apply owner?_of_mem_ids
    rw [ids_eq_chains]
    exact List.mem_map_of_mem member
  have found : s.chainOf? c.id = some owner.chain := by simp [chainOf?, held]
  obtain ⟨inside, same⟩ := mem_chains_of_chainOf? found
  rw [found, List.inj_on_of_nodup_map distinct inside member same]

mutual

theorem Sound.modifyOwner {id : ChainId} {f : TokenStream → TokenStream} : ∀ {s : TokenStream}, s.Sound →
    (∀ owner, s.owner? id = some owner → (f owner).Sound) → (s.modifyOwner id f).Sound
  | ⟨chain, nested⟩, sound, changed => by
    unfold TokenStream.modifyOwner
    by_cases here : chain.id = id
    · rw [if_pos here]
      exact changed _ (by simp [TokenStream.owner?, here])
    · rw [if_neg here]
      obtain ⟨linked, nodup, placed, sub⟩ := sound
      obtain ⟨among, places⟩ := SoundAmong.modifyOwner sub fun owner held =>
        changed owner (by simpa [TokenStream.owner?, here] using held)
      refine ⟨linked, places ▸ nodup, fun place member => ?_, among⟩
      obtain ⟨old, inside, same⟩ := List.mem_map.mp (places ▸ List.mem_map_of_mem member)
      exact same ▸ placed old inside

theorem SoundAmong.modifyOwner {id : ChainId} {f : TokenStream → TokenStream} :
    ∀ {nested : List (Nat × Option TokenStream)}, SoundAmong nested →
    (∀ owner, ownerAmong? id nested = some owner → (f owner).Sound) →
    SoundAmong (modifyOwnerAmong id f nested) ∧ (modifyOwnerAmong id f nested).map (·.1) = nested.map (·.1)
  | [], _, _ => ⟨trivial, rfl⟩
  | (index, some s) :: rest, ⟨first, others⟩, changed => by
    unfold modifyOwnerAmong
    by_cases inside : (s.owner? id).isSome = true
    · rw [if_pos inside]
      exact ⟨⟨first.modifyOwner fun owner held => changed owner (by simp [ownerAmong?, held]), others⟩, rfl⟩
    · rw [if_neg inside]
      have missing : s.owner? id = none := by simpa using inside
      obtain ⟨among, places⟩ := SoundAmong.modifyOwner others fun owner held =>
        changed owner (by simpa [ownerAmong?, missing] using held)
      exact ⟨⟨first, among⟩, by simp [places]⟩

end

mutual

theorem modifyOwner_congr {id : ChainId} {f f' : TokenStream → TokenStream} : ∀ {s : TokenStream},
    (∀ owner, s.owner? id = some owner → f owner = f' owner) → s.modifyOwner id f = s.modifyOwner id f'
  | ⟨chain, nested⟩, same => by
    unfold modifyOwner
    by_cases here : chain.id = id
    · rw [if_pos here, if_pos here, same _ (by simp [owner?, here])]
    · rw [if_neg here, if_neg here,
        modifyOwnerAmong_congr fun owner held => same owner (by simpa [owner?, here] using held)]

private theorem modifyOwnerAmong_congr {id : ChainId} {f f' : TokenStream → TokenStream} :
    ∀ {nested : List (Nat × Option TokenStream)}, (∀ owner, ownerAmong? id nested = some owner → f owner = f' owner) →
    modifyOwnerAmong id f nested = modifyOwnerAmong id f' nested
  | [], _ => rfl
  | (index, some s) :: rest, same => by
    unfold modifyOwnerAmong
    by_cases inside : (s.owner? id).isSome = true
    · rw [if_pos inside, if_pos inside, modifyOwner_congr fun owner held => same owner (by simp [ownerAmong?, held])]
    · have missing : s.owner? id = none := by simpa using inside
      rw [if_neg inside, if_neg inside, modifyOwnerAmong_congr fun owner held =>
        same owner (by simpa [ownerAmong?, missing] using held)]
  | (index, none) :: rest, same => by
    unfold modifyOwnerAmong
    rw [modifyOwnerAmong_congr fun owner held => same owner (by simpa [ownerAmong?] using held)]

end

mutual

theorem modifyOwner_absent {id : ChainId} {f : TokenStream → TokenStream} : ∀ {s : TokenStream},
    s.owner? id = none → s.modifyOwner id f = s
  | ⟨chain, nested⟩, missing => by
    unfold owner? at missing
    split_ifs at missing with here
    unfold modifyOwner
    rw [if_neg here, modifyOwnerAmong_absent missing]

private theorem modifyOwnerAmong_absent {id : ChainId} {f : TokenStream → TokenStream} :
    ∀ {nested : List (Nat × Option TokenStream)}, ownerAmong? id nested = none → modifyOwnerAmong id f nested = nested
  | [], _ => rfl
  | (index, some s) :: rest, missing => by
    unfold ownerAmong? at missing
    cases inner : s.owner? id with
    | some found => simp [inner] at missing
    | none =>
      have later := modifyOwnerAmong_absent (f := f) (show ownerAmong? id rest = none by simpa [inner] using missing)
      simp [modifyOwnerAmong, inner, later]
  | (index, none) :: rest, missing => by
    have later := modifyOwnerAmong_absent (f := f)
      (show ownerAmong? id rest = none by simpa [ownerAmong?] using missing)
    simp [modifyOwnerAmong, later]

end

mutual

theorem modifyOwner_same {id : ChainId} : ∀ s : TokenStream, s.modifyOwner id (fun owner => owner) = s
  | ⟨chain, nested⟩ => by
    unfold modifyOwner
    rw [modifyOwnerAmong_same nested]
    split <;> rfl

private theorem modifyOwnerAmong_same {id : ChainId} :
    ∀ nested : List (Nat × Option TokenStream), modifyOwnerAmong id (fun owner => owner) nested = nested
  | [] => rfl
  | (_, some s) :: rest => by simp [modifyOwnerAmong, modifyOwner_same s, modifyOwnerAmong_same rest]
  | (_, none) :: rest => by simp [modifyOwnerAmong, modifyOwnerAmong_same rest]

end

mutual

theorem owner?_modifyOwner {id : ChainId} {f : TokenStream → TokenStream} : ∀ {s owner : TokenStream},
    s.owner? id = some owner → (f owner).chain.id = id → (s.modifyOwner id f).owner? id = some (f owner)
  | ⟨chain, nested⟩, owner, held, kept => by
    unfold modifyOwner
    unfold owner? at held
    by_cases here : chain.id = id
    · obtain rfl : ⟨chain, nested⟩ = owner := by simpa [here] using held
      rw [if_pos here, ← kept, owner?_self]
    · rw [if_neg here] at held ⊢
      simpa [owner?, here] using ownerAmong?_modifyOwner held kept

private theorem ownerAmong?_modifyOwner {id : ChainId} {f : TokenStream → TokenStream} :
    ∀ {nested : List (Nat × Option TokenStream)} {owner : TokenStream}, ownerAmong? id nested = some owner →
    (f owner).chain.id = id → ownerAmong? id (modifyOwnerAmong id f nested) = some (f owner)
  | [], _, held, _ => by cases held
  | (index, some s) :: rest, owner, held, kept => by
    unfold modifyOwnerAmong
    unfold ownerAmong? at held
    cases inner : s.owner? id with
    | some found =>
      obtain rfl : found = owner := by simpa [inner] using held
      simp [ownerAmong?, owner?_modifyOwner inner kept]
    | none =>
      have later := ownerAmong?_modifyOwner (show ownerAmong? id rest = some owner by simpa [inner] using held) kept
      simpa [ownerAmong?, inner] using later
  | (index, none) :: rest, owner, held, kept => by
    simpa [modifyOwnerAmong, ownerAmong?] using
      ownerAmong?_modifyOwner (show ownerAmong? id rest = some owner by simpa [ownerAmong?] using held) kept

end

theorem id_modifyOwner {s : TokenStream} {id : ChainId} {f : TokenStream → TokenStream}
    (kept : ∀ owner, s.owner? id = some owner → (f owner).chain.id = owner.chain.id) :
    (s.modifyOwner id f).chain.id = s.chain.id := by
  cases s with
  | mk chain nested =>
    unfold modifyOwner
    split_ifs with here
    · exact kept _ (by simp [owner?, here])
    · rfl

/-- A token is inserted into the stream that holds its neighbour, as if that one had been asked. -/
theorem insertInto_owner {s after : TokenStream} {position new : Handle} {place : Chain Token → Nat → Option Nat}
    {token : Token} (done : s.insertInto position place token = .ok (new, after)) :
    ∃ owner owner', s.owner? position.chain = some owner ∧ owner.insertInto position place token = .ok (new, owner') ∧
      after = s.modifyOwner position.chain fun _ => owner' := by
  unfold insertInto checkedOwner at done
  cases held : s.owner? position.chain with
  | none => simp [held, bind, Except.bind] at done
  | some owner =>
    cases checked : owner.checkedIndex position with
    | error e => simp [held, checked, bind, Except.bind] at done
    | ok index =>
      rcases placed : owner.chain.insertAt (place owner.chain index) token with ⟨h, chain⟩
      obtain ⟨rfl, rfl⟩ : h = new ∧ s.modifyOwner position.chain (fun owner => { owner with chain }) = after := by
        simpa [held, checked, placed, bind, Except.bind, pure, Except.pure] using done
      have own : position.chain = owner.chain.id := (id_of_owner? held).symm
      refine ⟨owner, { owner with chain }, rfl, ?_, modifyOwner_congr fun other found => ?_⟩
      · simp [insertInto, checkedOwner, own, checked, placed, bind, Except.bind, pure, Except.pure]
      · obtain rfl : other = owner := Option.some.inj (found.symm.trans held)
        rfl

theorem Sound.insertBefore_deep {s after : TokenStream} (sound : s.Sound) {before new : Handle} {token : Token}
    (done : s.insertBefore before token = .ok (new, after)) :
    after.Sound ∧ after.ids = s.ids ∧ ∃ owner owner' front piece back, s.owner? before.chain = some owner ∧
      after = s.modifyOwner before.chain (fun _ => owner') ∧ owner'.ids = owner.ids ∧ owner'.Sound ∧
      owner.view = front ++ piece :: back ∧ piece.1 = before ∧
      owner'.view = front ++ (new, token, none) :: piece :: back := by
  obtain ⟨owner, owner', held, inserted, rfl⟩ := insertInto_owner done
  obtain ⟨sound', ids, _, front, piece, back, split, named, view⟩ :=
    (sound.owner? held).insertBefore (id_of_owner? held).symm inserted
  refine ⟨sound.modifyOwner fun _ _ => sound', ids_modifyOwner held ids, owner, owner', front, piece, back, held, rfl,
    ids, sound', split, named, view⟩

theorem Sound.insertAfter_deep {s after : TokenStream} (sound : s.Sound) {behind new : Handle} {token : Token}
    (done : s.insertAfter behind token = .ok (new, after)) :
    after.Sound ∧ after.ids = s.ids ∧ ∃ owner owner' front piece back, s.owner? behind.chain = some owner ∧
      after = s.modifyOwner behind.chain (fun _ => owner') ∧ owner'.ids = owner.ids ∧ owner'.Sound ∧
      owner.view = front ++ piece :: back ∧ piece.1 = behind ∧
      owner'.view = front ++ piece :: (new, token, none) :: back := by
  obtain ⟨owner, owner', held, inserted, rfl⟩ := insertInto_owner done
  obtain ⟨sound', ids, _, front, piece, back, split, named, view⟩ :=
    (sound.owner? held).insertAfter (id_of_owner? held).symm inserted
  refine ⟨sound.modifyOwner fun _ _ => sound', ids_modifyOwner held ids, owner, owner', front, piece, back, held, rfl,
    ids, sound', split, named, view⟩

/-- Nothing but the removed range changed in the owner, except for aliases that became
copies; and only such aliases changed around it. -/
theorem Sound.erase_owner {s after : TokenStream} (sound : s.Sound) (distinct : s.ids.Nodup) {first last : Handle}
    (done : s.erase first last = .ok after) :
    ∃ owner settled held handles, s.owner? first.chain = some owner ∧ owner.rangeHandles first last = .ok handles ∧
      settled = s.detachAliases handles ∧ Settled s settled ∧ settled.owner? first.chain = some held ∧
      Alike (Kept s) owner held ∧ after = settled.modifyOwner first.chain fun _ => held.dropAll handles := by
  unfold TokenStream.erase checkedOwner at done
  cases held : s.owner? first.chain with
  | none => simp [held, bind, Except.bind] at done
  | some owner =>
    cases found : owner.rangeHandles first last with
    | error e => simp [held, found, bind, Except.bind] at done
    | ok handles =>
      have settled := (Settled.refl sound distinct).detachAliases sound distinct handles
      have done : (s.detachAliases handles).modifyOwner first.chain (·.dropAll handles) = after := by
        simpa [held, found, bind, Except.bind, pure, Except.pure] using done
      have owners := settled.alike.owner? first.chain
      rw [held] at owners
      cases after_eq : (s.detachAliases handles).owner? first.chain with
      | none => simp [after_eq] at owners
      | some kept =>
        refine ⟨owner, _, kept, handles, rfl, found, rfl, settled, after_eq, by simpa [after_eq] using owners, ?_⟩
        rw [← done]
        refine modifyOwner_congr fun other same => ?_
        obtain rfl : other = kept := Option.some.inj (same.symm.trans after_eq)
        rfl

theorem Sound.erase_deep {s after : TokenStream} (sound : s.Sound) (distinct : s.ids.Nodup) {first last : Handle}
    (done : s.erase first last = .ok after) :
    after.Sound ∧ (∀ id, after.ids.count id ≤ s.ids.count id) ∧ ∃ owner owner' front middle back,
      s.owner? first.chain = some owner ∧ after.owner? first.chain = some owner' ∧
      owner.view = front ++ (middle ++ back) ∧ Spans first last middle ∧
      List.Forall₂ (Stays s) (front ++ back) owner'.view := by
  obtain ⟨owner, settled, kept, handles, held, found, _, calm, held', alike, rfl⟩ := sound.erase_owner distinct done
  obtain ⟨front, middle, back, split, rfl, spans⟩ :=
    (sound.owner? held).rangeHandles (id_of_owner? held).symm found
  have stays := alike.stays
  rw [split] at stays
  obtain ⟨front', rest, split', left, others⟩ := forall₂_parts stays
  obtain ⟨middle', back', rfl, gone, right⟩ := forall₂_parts others
  have dropped := (calm.sound.owner? held').dropAll split'
  rw [handles_of_stays gone] at dropped
  obtain ⟨sound', view, id, counted⟩ := dropped
  refine ⟨calm.sound.modifyOwner fun _ _ => sound', fun other => ?_, owner, _, front, middle, back, held,
    owner?_modifyOwner held' (id.trans (id_of_owner? held')), split, spans, view ▸ List.rel_append left right⟩
  have total := count_modifyOwner held' (fun _ => kept.dropAll (middle.map (·.1))) other
  have bound := counted other
  rw [calm.alike.ids_eq] at total
  omega

end YaraRules.TokenStream

import YaraRules.Proofs.StreamOwners

/-! Sound streams and streams that are alike. A stream is sound when its chain is and
the slots that own nested streams are occupied ones, each listed once; the streams
nested in it are sound too. Two streams are alike when they hold the same handles
in the same order at every depth and their tokens are related one by one. -/

namespace YaraRules.TokenStream

mutual

def Sound : TokenStream → Prop
  | ⟨chain, nested⟩ =>
    chain.Sound ∧ (nested.map (·.1)).Nodup ∧ (∀ place ∈ nested, place.1 ∈ chain.entries.map Chain.slotOf) ∧
      SoundAmong nested

/-- Every place has a stream, which is sound. -/
def SoundAmong : List (Nat × Option TokenStream) → Prop
  | [] => True
  | (_, some s) :: rest => Sound s ∧ SoundAmong rest
  | (_, none) :: _ => False

end

mutual

/-- Identities of a stream and of all that are nested in it. -/
def ids : TokenStream → List ChainId
  | ⟨chain, nested⟩ => chain.id :: idsAmong nested

def idsAmong : List (Nat × Option TokenStream) → List ChainId
  | [] => []
  | (_, some s) :: rest => ids s ++ idsAmong rest
  | (_, none) :: rest => idsAmong rest

end

mutual

/-- Same handles in the same order, with related tokens, also in nested streams. -/
def Alike (related : Handle → Token → Token → Prop) : TokenStream → TokenStream → Prop
  | ⟨chain, nested⟩, other =>
    other.chain.id = chain.id ∧
      List.Forall₂ (fun old new => new.1 = old.1 ∧ related old.1 old.2 new.2) chain.entries other.chain.entries ∧
      AlikeAmong related nested other.nested

def AlikeAmong (related : Handle → Token → Token → Prop) :
    List (Nat × Option TokenStream) → List (Nat × Option TokenStream) → Prop
  | [], others => others = []
  | (index, some s) :: rest, others =>
    ∃ other more, others = (index, some other) :: more ∧ Alike related s other ∧ AlikeAmong related rest more
  | (index, none) :: rest, others => ∃ more, others = (index, none) :: more ∧ AlikeAmong related rest more

end

variable {related : Handle → Token → Token → Prop}

theorem forall₂_compose {α β γ : Type} {first : α → β → Prop} {second : β → γ → Prop} {whole : α → γ → Prop}
    (compose : ∀ a b c, first a b → second b c → whole a c) {xs : List α} {ys : List β} {zs : List γ}
    (left : List.Forall₂ first xs ys) (right : List.Forall₂ second ys zs) : List.Forall₂ whole xs zs := by
  induction left generalizing zs with
  | nil => cases right; exact .nil
  | cons one _ ih =>
    cases right with
    | cons other rest => exact .cons (compose _ _ _ one other) (ih rest)

theorem id_mem_ids (s : TokenStream) : s.chain.id ∈ s.ids := by
  cases s
  simp [ids]

theorem Sound.chain {s : TokenStream} (sound : s.Sound) : s.chain.Sound := by
  cases s
  exact sound.1

theorem Alike.id_eq {s other : TokenStream} (alike : Alike related s other) : other.chain.id = s.chain.id := by
  cases s
  exact alike.1

mutual

theorem Alike.ids_eq : ∀ {s other : TokenStream}, Alike related s other → other.ids = s.ids
  | ⟨chain, nested⟩, ⟨chain', nested'⟩, ⟨id, _, among⟩ => by
    simp only [ids]
    rw [AlikeAmong.ids_eq among]
    exact congrArg (· :: _) id

theorem AlikeAmong.ids_eq : ∀ {nested others : List (Nat × Option TokenStream)},
    AlikeAmong related nested others → idsAmong others = idsAmong nested
  | [], _, rfl => rfl
  | (_, some _) :: _, _, ⟨_, _, rfl, first, among⟩ => by
    simp only [idsAmong, Alike.ids_eq first, AlikeAmong.ids_eq among]
  | (_, none) :: _, _, ⟨_, rfl, among⟩ => by
    simp only [idsAmong, AlikeAmong.ids_eq among]

end

mutual

theorem Alike.trans {first second whole : Handle → Token → Token → Prop}
    (compose : ∀ h a b c, first h a b → second h b c → whole h a c) :
    ∀ {s middle last : TokenStream}, Alike first s middle → Alike second middle last → Alike whole s last
  | ⟨_, _⟩, ⟨_, _⟩, ⟨_, _⟩, ⟨id, entries, among⟩, ⟨id', entries', among'⟩ => by
    refine ⟨id'.trans id, ?_, AlikeAmong.trans compose among among'⟩
    refine forall₂_compose ?_ entries entries'
    rintro a b c ⟨same, left⟩ ⟨same', right⟩
    exact ⟨same'.trans same, compose _ _ _ _ left (same ▸ right)⟩

theorem AlikeAmong.trans {first second whole : Handle → Token → Token → Prop}
    (compose : ∀ h a b c, first h a b → second h b c → whole h a c) :
    ∀ {nested middle last : List (Nat × Option TokenStream)},
      AlikeAmong first nested middle → AlikeAmong second middle last → AlikeAmong whole nested last
  | [], _, _, rfl, among' => among'
  | (_, some _) :: _, _, _, ⟨_, _, rfl, one, among⟩, ⟨_, _, rfl, one', among'⟩ =>
    ⟨_, _, rfl, Alike.trans compose one one', AlikeAmong.trans compose among among'⟩
  | (_, none) :: _, _, _, ⟨_, rfl, among⟩, ⟨_, rfl, among'⟩ => ⟨_, rfl, AlikeAmong.trans compose among among'⟩

end

mutual

theorem Sound.owner? {id : ChainId} : ∀ {s found : TokenStream}, s.Sound → s.owner? id = some found → found.Sound
  | ⟨chain, nested⟩, found, sound, held => by
    unfold TokenStream.owner? at held
    split_ifs at held
    · cases held
      exact sound
    · exact SoundAmong.owner? sound.2.2.2 held

theorem SoundAmong.owner? {id : ChainId} : ∀ {nested : List (Nat × Option TokenStream)} {found : TokenStream},
    SoundAmong nested → ownerAmong? id nested = some found → found.Sound
  | [], _, _, held => by cases held
  | (_, some s) :: rest, found, sound, held => by
    unfold ownerAmong? at held
    cases inner : TokenStream.owner? id s with
    | none => exact SoundAmong.owner? sound.2 (by simpa [inner] using held)
    | some other =>
      have same : other = found := by simpa [inner] using held
      exact same ▸ Sound.owner? sound.1 inner

end

mutual

/-- Streams that are alike find the streams of an identity in the same places. -/
theorem Alike.owner? (id : ChainId) : ∀ {s other : TokenStream}, Alike related s other →
    Option.Rel (Alike related) (s.owner? id) (other.owner? id)
  | ⟨chain, nested⟩, ⟨chain', nested'⟩, ⟨same, entries, among⟩ => by
    unfold TokenStream.owner?
    have ids : chain'.id = chain.id := same
    rw [ids]
    split_ifs
    · exact .some ⟨same, entries, among⟩
    · exact AlikeAmong.owner? id among

theorem AlikeAmong.owner? (id : ChainId) : ∀ {nested others : List (Nat × Option TokenStream)},
    AlikeAmong related nested others → Option.Rel (Alike related) (ownerAmong? id nested) (ownerAmong? id others)
  | [], _, rfl => .none
  | (_, some s) :: rest, _, ⟨other, more, rfl, one, among⟩ => by
    have first := Alike.owner? id one
    unfold ownerAmong?
    cases inner : TokenStream.owner? id s with
    | none =>
      cases outer : TokenStream.owner? id other with
      | none => exact AlikeAmong.owner? id among
      | some found => simp [inner, outer] at first
    | some held =>
      cases outer : TokenStream.owner? id other with
      | none => simp [inner, outer] at first
      | some found => simpa [inner, outer] using first
  | (_, none) :: rest, _, ⟨more, rfl, among⟩ => by
    unfold ownerAmong?
    exact AlikeAmong.owner? id among

end

theorem Sound.get?_eq_some {s : TokenStream} (sound : s.Sound) (h : Handle) (token : Token) :
    s.get? h = some token ↔ ∃ owner, s.owner? h.chain = some owner ∧ (h, token) ∈ owner.chain.entries := by
  unfold TokenStream.get?
  cases held : s.owner? h.chain with
  | none => simp
  | some owner => simpa using (sound.owner? held).chain.get?_eq_some h token

private theorem related_left {xs ys : List (Handle × Token)}
    (entries : List.Forall₂ (fun old new => new.1 = old.1 ∧ related old.1 old.2 new.2) xs ys)
    {h : Handle} {old : Token} (member : (h, old) ∈ xs) : ∃ new, (h, new) ∈ ys ∧ related h old new := by
  induction entries with
  | nil => cases member
  | @cons a b _ _ one _ ih =>
    rcases List.mem_cons.mp member with same | later
    · subst same
      obtain ⟨handle, token⟩ := b
      obtain ⟨rfl, step⟩ := one
      exact ⟨token, by simp, step⟩
    · obtain ⟨new, inside, step⟩ := ih later
      exact ⟨new, by simp [inside], step⟩

private theorem related_right {xs ys : List (Handle × Token)}
    (entries : List.Forall₂ (fun old new => new.1 = old.1 ∧ related old.1 old.2 new.2) xs ys)
    {h : Handle} {new : Token} (member : (h, new) ∈ ys) : ∃ old, (h, old) ∈ xs ∧ related h old new := by
  induction entries with
  | nil => cases member
  | @cons a b _ _ one _ ih =>
    rcases List.mem_cons.mp member with same | later
    · subst same
      obtain ⟨handle, token⟩ := a
      obtain ⟨rfl, step⟩ := one
      exact ⟨token, by simp, step⟩
    · obtain ⟨old, inside, step⟩ := ih later
      exact ⟨old, by simp [inside], step⟩

theorem Alike.entries {s other : TokenStream} (alike : Alike related s other) :
    List.Forall₂ (fun old new => new.1 = old.1 ∧ related old.1 old.2 new.2) s.chain.entries other.chain.entries := by
  cases s
  exact alike.2.1

theorem Alike.nested {s other : TokenStream} (alike : Alike related s other) :
    AlikeAmong related s.nested other.nested := by
  cases s
  exact alike.2.2

/-- Related tokens are found by the same handles. -/
theorem Alike.get? {s other : TokenStream} (alike : Alike related s other) (sound : s.Sound)
    (sound' : other.Sound) (h : Handle) : Option.Rel (related h) (s.get? h) (other.get? h) := by
  have owners := alike.owner? h.chain
  have here := sound.get?_eq_some h
  have there := sound'.get?_eq_some h
  cases found : s.get? h with
  | some old =>
    obtain ⟨owner, held, member⟩ := (here old).mp found
    rw [held] at owners
    obtain ⟨owner', held', pair⟩ : ∃ owner', other.owner? h.chain = some owner' ∧ Alike related owner owner' := by
      cases outer : other.owner? h.chain with
      | none => simp [outer] at owners
      | some owner' => exact ⟨owner', rfl, by simpa [outer] using owners⟩
    obtain ⟨new, inside, step⟩ := related_left pair.entries member
    rw [(there new).mpr ⟨owner', held', inside⟩]
    exact .some step
  | none =>
    cases found' : other.get? h with
    | none => exact .none
    | some new =>
      obtain ⟨owner', held', member⟩ := (there new).mp found'
      rw [held'] at owners
      obtain ⟨owner, held, pair⟩ : ∃ owner, s.owner? h.chain = some owner ∧ Alike related owner owner' := by
        cases inner : s.owner? h.chain with
        | none => simp [inner] at owners
        | some owner => exact ⟨owner, rfl, by simpa [inner] using owners⟩
      obtain ⟨old, inside, step⟩ := related_right pair.entries member
      have stored := (here old).mpr ⟨owner, held, inside⟩
      simp [found] at stored

mutual

theorem Alike.refl (reflexive : ∀ h token, related h token token) : ∀ s : TokenStream, Alike related s s
  | ⟨_, nested⟩ => ⟨rfl, List.forall₂_same.mpr fun _ _ => ⟨rfl, reflexive _ _⟩, AlikeAmong.refl reflexive nested⟩

theorem AlikeAmong.refl (reflexive : ∀ h token, related h token token) :
    ∀ nested : List (Nat × Option TokenStream), AlikeAmong related nested nested
  | [] => rfl
  | (_, some s) :: rest => ⟨s, rest, rfl, Alike.refl reflexive s, AlikeAmong.refl reflexive rest⟩
  | (_, none) :: rest => ⟨rest, rfl, AlikeAmong.refl reflexive rest⟩

end

theorem AlikeAmong.places : ∀ {nested others : List (Nat × Option TokenStream)},
    AlikeAmong related nested others → others.map (·.1) = nested.map (·.1)
  | [], _, rfl => rfl
  | (_, some _) :: _, _, ⟨_, _, rfl, _, among⟩ => congrArg (_ :: ·) among.places
  | (_, none) :: _, _, ⟨_, rfl, among⟩ => congrArg (_ :: ·) among.places

/-- What a change of one token does to each token. -/
def Touched (h : Handle) (f : Token → Token) (stored : Token → Prop) (other : Handle) (old new : Token) : Prop :=
  new = old ∨ other = h ∧ stored old ∧ new = f old

mutual

private theorem Sound.modify_alike {h : Handle} {f : Token → Token} {stored : Token → Prop} : ∀ {s : TokenStream},
    s.Sound →
    (∀ owner, s.owner? h.chain = some owner → ∀ token, (h, token) ∈ owner.chain.entries → stored token) →
    (s.modify h f).Sound ∧ Alike (Touched h f stored) s (s.modify h f)
  | ⟨chain, nested⟩, ⟨linked, nodup, placed, sub⟩, found => by
    rw [modify_eq]
    unfold modifyOwner
    by_cases here : chain.id = h.chain
    · rw [if_pos here]
      have held := found ⟨chain, nested⟩ (by simp [TokenStream.owner?, here])
      obtain ⟨after, entries⟩ := linked.modify h f
      refine ⟨⟨after, nodup, fun place member => ?_, sub⟩, chain.id_modify h f, ?_, ?_⟩
      · have slots : (chain.modify h f).entries.map Chain.slotOf = chain.entries.map Chain.slotOf := by
          rw [entries, List.map_map]
          refine List.map_congr_left fun entry _ => ?_
          by_cases same : entry.1 = h <;> simp [same, Chain.slotOf]
        exact slots ▸ placed place member
      · change List.Forall₂ _ chain.entries (chain.modify h f).entries
        rw [entries]
        refine List.forall₂_map_right_iff.mpr (List.forall₂_same.mpr fun entry member => ?_)
        by_cases same : entry.1 = h
        · rw [if_pos same]
          exact ⟨same.symm, .inr ⟨same, held entry.2 (same ▸ member), rfl⟩⟩
        · rw [if_neg same]
          exact ⟨rfl, .inl rfl⟩
      · exact AlikeAmong.refl (fun _ _ => .inl rfl) nested
    · rw [if_neg here]
      obtain ⟨after, alike⟩ := SoundAmong.modify_alike (f := f) sub
        (fun owner held => found owner (by simpa [TokenStream.owner?, here] using held))
      have places := alike.places
      refine ⟨⟨linked, places ▸ nodup, fun place member => ?_, after⟩, rfl, ?_, alike⟩
      · have member' : place.1 ∈ nested.map (·.1) := places ▸ List.mem_map_of_mem member
        obtain ⟨other, inside, same⟩ := List.mem_map.mp member'
        exact same ▸ placed other inside
      · exact List.forall₂_same.mpr fun _ _ => ⟨rfl, .inl rfl⟩

private theorem SoundAmong.modify_alike {h : Handle} {f : Token → Token} {stored : Token → Prop} :
    ∀ {nested : List (Nat × Option TokenStream)}, SoundAmong nested →
    (∀ owner, ownerAmong? h.chain nested = some owner → ∀ token, (h, token) ∈ owner.chain.entries → stored token) →
    SoundAmong (modifyOwnerAmong h.chain (onChain (·.modify h f)) nested) ∧
      AlikeAmong (Touched h f stored) nested (modifyOwnerAmong h.chain (onChain (·.modify h f)) nested)
  | [], _, _ => ⟨trivial, rfl⟩
  | (index, some s) :: rest, ⟨first, others⟩, found => by
    unfold modifyOwnerAmong
    by_cases inside : (s.owner? h.chain).isSome = true
    · rw [if_pos inside]
      obtain ⟨after, alike⟩ := Sound.modify_alike (f := f) first
        (fun owner held => found owner (by simp [ownerAmong?, held]))
      exact ⟨⟨after, others⟩, _, _, rfl, alike, AlikeAmong.refl (fun _ _ => .inl rfl) rest⟩
    · rw [if_neg inside]
      have missing : s.owner? h.chain = none := by simpa using inside
      obtain ⟨after, alike⟩ := SoundAmong.modify_alike (f := f) others
        (fun owner held => found owner (by simpa [ownerAmong?, missing] using held))
      exact ⟨⟨first, after⟩, _, _, rfl, Alike.refl (fun _ _ => .inl rfl) s, alike⟩

end

theorem Sound.modify_touched {s : TokenStream} (sound : s.Sound) (h : Handle) (f : Token → Token) :
    (s.modify h f).Sound ∧ Alike (Touched h f fun _ => True) s (s.modify h f) :=
  sound.modify_alike fun _ _ _ _ => trivial

end YaraRules.TokenStream

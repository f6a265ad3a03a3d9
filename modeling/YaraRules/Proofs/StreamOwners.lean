import YaraRules.Proofs.ChainEntries
import YaraRules.TokenStream.Move

/-! Streams inside streams. A handle is looked up in the stream that has its identity,
however deep that one is nested; the lemmas here say what is found after a token
was changed there. None of them needs the identities to be distinct, because
looking up and changing agree on which stream is the first. -/

namespace YaraRules.TokenStream

/-- Chain of the stream with the given identity. -/
def chainOf? (s : TokenStream) (id : ChainId) : Option (Chain Token) := (s.owner? id).map (·.chain)

theorem get?_eq (s : TokenStream) (h : Handle) : s.get? h = (s.chainOf? h.chain).bind (·.get? h) := by
  simp only [get?, chainOf?]
  cases s.owner? h.chain <;> rfl

@[simp] theorem owner?_self (s : TokenStream) : s.owner? s.chain.id = some s := by
  cases s
  simp [owner?]

@[simp] theorem chainOf?_self (s : TokenStream) : s.chainOf? s.chain.id = some s.chain := by
  simp [chainOf?]

@[simp] theorem modifyOwner_self (s : TokenStream) (f : TokenStream → TokenStream) :
    s.modifyOwner s.chain.id f = f s := by
  cases s
  simp [modifyOwner]

mutual

theorem id_of_owner? {id : ChainId} : ∀ {s found : TokenStream}, s.owner? id = some found → found.chain.id = id
  | ⟨chain, nested⟩, found, held => by
    unfold owner? at held
    split_ifs at held with same
    · cases held
      exact same
    · exact id_of_ownerAmong? held

private theorem id_of_ownerAmong? {id : ChainId} : ∀ {nested : List (Nat × Option TokenStream)} {found : TokenStream},
    ownerAmong? id nested = some found → found.chain.id = id
  | [], found, held => by cases held
  | (_, some s) :: rest, found, held => by
    unfold ownerAmong? at held
    cases inner : owner? id s with
    | none => exact id_of_ownerAmong? (by simpa [inner] using held)
    | some other =>
      have same : other = found := by simpa [inner] using held
      exact same ▸ id_of_owner? inner
  | (_, none) :: rest, found, held => id_of_ownerAmong? (by simpa [ownerAmong?] using held)

end

/-- Changes of one chain, which keeps its identity and the streams nested in it. -/
def onChain (f : Chain Token → Chain Token) (s : TokenStream) : TokenStream := { s with chain := f s.chain }

mutual

private theorem chainOf?_modifyOwner (id : ChainId) {f : Chain Token → Chain Token} (kept : ∀ c, (f c).id = c.id) :
    ∀ (s : TokenStream) (other : ChainId), (s.modifyOwner id (onChain f)).chainOf? other =
      if other = id then (s.chainOf? other).map f else s.chainOf? other
  | ⟨chain, nested⟩, other => by
    have among := chainAmong_modifyOwner id kept nested other
    unfold chainOf? modifyOwner
    split_ifs with here same same
    · simp [onChain, owner?, kept, same, here]
    · subst here
      simp [onChain, owner?, kept, Ne.symm same]
    · simpa [owner?, here, same] using among
    · by_cases top : chain.id = other
      · simp [owner?, top]
      · simpa [owner?, top, same] using among

private theorem chainAmong_modifyOwner (id : ChainId) {f : Chain Token → Chain Token} (kept : ∀ c, (f c).id = c.id) :
    ∀ (nested : List (Nat × Option TokenStream))
    (other : ChainId), (ownerAmong? other (modifyOwnerAmong id (onChain f) nested)).map (·.chain) =
      if other = id then ((ownerAmong? other nested).map (·.chain)).map f
      else (ownerAmong? other nested).map (·.chain)
  | [], other => by simp [modifyOwnerAmong, ownerAmong?]
  | (index, some s) :: rest, other => by
    have first := chainOf?_modifyOwner id kept s other
    have later := chainAmong_modifyOwner id kept rest other
    unfold chainOf? at first
    unfold modifyOwnerAmong
    by_cases inside : (owner? id s).isSome = true
    · -- The first stream with the identity is in `s`, so `rest` stays as it is.
      rw [if_pos inside]
      by_cases same : other = id
      · subst same
        obtain ⟨held, found⟩ := Option.isSome_iff_exists.mp inside
        rw [if_pos rfl, found] at first
        obtain ⟨changed, after, chain⟩ := Option.map_eq_some_iff.mp first
        simp [ownerAmong?, after, found, chain]
      · rw [if_neg same] at first ⊢
        cases found : owner? other s with
        | none =>
          have after : owner? other (modifyOwner id (onChain f) s) = none := by simpa [found] using first
          simp [ownerAmong?, after, found]
        | some held =>
          obtain ⟨changed, after, chain⟩ := Option.map_eq_some_iff.mp (first.trans (by rw [found]; rfl))
          simp [ownerAmong?, after, found, chain]
    · rw [if_neg inside]
      have missing : owner? id s = none := by simpa using inside
      cases found : owner? other s with
      | none => simpa [ownerAmong?, found] using later
      | some held =>
        have apart : other ≠ id := fun same => by simp [same, missing] at found
        simp [ownerAmong?, found, apart]
  | (index, none) :: rest, other => by
    simpa [modifyOwnerAmong, ownerAmong?] using chainAmong_modifyOwner id kept rest other

end

theorem modify_eq (s : TokenStream) (h : Handle) (f : Token → Token) :
    s.modify h f = s.modifyOwner h.chain (onChain (·.modify h f)) := rfl

private theorem chainOf?_modify (s : TokenStream) (h : Handle) (f : Token → Token) (id : ChainId) :
    (s.modify h f).chainOf? id =
      if id = h.chain then (s.chainOf? id).map (·.modify h f) else s.chainOf? id :=
  chainOf?_modifyOwner h.chain (fun c => c.id_modify h f) s id

@[simp] theorem id_modify (s : TokenStream) (h : Handle) (f : Token → Token) :
    (s.modify h f).chain.id = s.chain.id := by
  cases s
  rw [modify_eq, modifyOwner]
  split_ifs
  · exact Chain.id_modify _ h f
  · rfl

theorem get?_modify (s : TokenStream) (h : Handle) (f : Token → Token) (other : Handle) :
    (s.modify h f).get? other = if other = h then (s.get? h).map f else s.get? other := by
  rw [get?_eq, get?_eq s h, get?_eq s other, chainOf?_modify]
  by_cases chain : other.chain = h.chain
  · rw [if_pos chain, chain]
    cases s.chainOf? h.chain with
    | none => simp
    | some c => exact c.get?_modify h f other
  · have apart : other ≠ h := fun same => chain (same ▸ rfl)
    rw [if_neg chain, if_neg apart]

end YaraRules.TokenStream

import YaraRules.Proofs.StreamSound

/-! Aliases that become copies. When tokens leave a stream, other tokens that stood for
them take copies of their literals. A stream that is settled from an earlier one
differs from it in nothing but such copies, and each copy is of a literal that the
earlier stream leads to. -/

namespace YaraRules.TokenStream

mutual

theorem mem_ids_of_owner? {id : ChainId} : ∀ {s found : TokenStream}, s.owner? id = some found → id ∈ s.ids
  | ⟨chain, nested⟩, found, held => by
    unfold owner? at held
    split_ifs at held with same
    · simp [ids, same]
    · simp [ids, mem_ids_of_ownerAmong? held]

theorem mem_ids_of_ownerAmong? {id : ChainId} : ∀ {nested : List (Nat × Option TokenStream)} {found : TokenStream},
    ownerAmong? id nested = some found → id ∈ idsAmong nested
  | [], _, held => by cases held
  | (_, some s) :: rest, found, held => by
    unfold ownerAmong? at held
    cases inner : owner? id s with
    | none =>
      simp [idsAmong, mem_ids_of_ownerAmong? (show ownerAmong? id rest = some found by simpa [inner] using held)]
    | some other => simp [idsAmong, mem_ids_of_owner? inner]
  | (_, none) :: rest, found, held => by
    simp [idsAmong, mem_ids_of_ownerAmong? (show ownerAmong? id rest = some found by simpa [ownerAmong?] using held)]

end

mutual

/-- With distinct identities every token is found by its handle, however deep it is. -/
theorem Sound.owner?_of_deep {h : Handle} {token : Token} : ∀ {s : TokenStream}, s.Sound → s.ids.Nodup →
    (h, token) ∈ s.deepEntries → ∃ owner, s.owner? h.chain = some owner ∧ (h, token) ∈ owner.chain.entries
  | ⟨chain, nested⟩, ⟨linked, _, _, sub⟩, distinct, member => by
    unfold deepEntries at member
    simp only [ids, List.nodup_cons] at distinct
    obtain ⟨⟨holder, kept⟩, inside, listed⟩ := List.mem_flatMap.mp member
    rcases List.mem_cons.mp listed with same | deeper
    · cases same
      have here : h.chain = chain.id := linked.chain_eq inside
      exact ⟨⟨chain, nested⟩, by simp [owner?, here], inside⟩
    · obtain ⟨entries, found, held⟩ : ∃ entries, (holder.index, entries) ∈ deepEntriesAmong nested ∧
          (h, token) ∈ entries := by
        cases place : (deepEntriesAmong nested).lookup holder.index with
        | none => simp [place] at deeper
        | some entries =>
          obtain ⟨_, _, split, _⟩ := List.lookup_eq_some_iff.mp place
          exact ⟨entries, by simp [split], by simpa [place] using deeper⟩
      obtain ⟨owner, found, stored⟩ := SoundAmong.owner?_of_deep sub distinct.2 found held
      have apart : chain.id ≠ h.chain := fun same => distinct.1 (same ▸ mem_ids_of_ownerAmong? found)
      exact ⟨owner, by simp [owner?, apart, found], stored⟩

theorem SoundAmong.owner?_of_deep {h : Handle} {token : Token} {index : Nat} {entries : List (Handle × Token)} :
    ∀ {nested : List (Nat × Option TokenStream)}, SoundAmong nested → (idsAmong nested).Nodup →
    (index, entries) ∈ deepEntriesAmong nested → (h, token) ∈ entries →
    ∃ owner, ownerAmong? h.chain nested = some owner ∧ (h, token) ∈ owner.chain.entries
  | [], _, _, member, _ => by simp [deepEntriesAmong] at member
  | (_, some s) :: rest, ⟨first, others⟩, distinct, member, held => by
    simp only [deepEntriesAmong, List.mem_cons, Prod.mk.injEq] at member
    simp only [idsAmong, List.nodup_append'] at distinct
    rcases member with ⟨rfl, rfl⟩ | later
    · obtain ⟨owner, found, stored⟩ := Sound.owner?_of_deep first distinct.1 held
      exact ⟨owner, by simp [ownerAmong?, found], stored⟩
    · obtain ⟨owner, found, stored⟩ := SoundAmong.owner?_of_deep others distinct.2.1 later held
      have missing : s.owner? h.chain = none := by
        cases inner : s.owner? h.chain with
        | none => rfl
        | some other => exact absurd (mem_ids_of_ownerAmong? found) (distinct.2.2 (mem_ids_of_owner? inner))
      exact ⟨owner, by simp [ownerAmong?, missing, found], stored⟩

end

theorem Sound.get?_of_deep {s : TokenStream} (sound : s.Sound) (distinct : s.ids.Nodup) {h : Handle} {token : Token}
    (member : (h, token) ∈ s.deepEntries) : s.get? h = some token :=
  (sound.get?_eq_some h token).mpr (sound.owner?_of_deep distinct member)

mutual

private theorem Sound.alike_self {related : Handle → Token → Token → Prop} :
    ∀ {s : TokenStream}, s.Sound → s.ids.Nodup →
    (∀ owner, s.owner? owner.chain.id = some owner →
      ∀ entry ∈ owner.chain.entries, related entry.1 entry.2 entry.2) → Alike related s s
  | ⟨chain, nested⟩, ⟨_, _, _, sub⟩, distinct, holds => by
    simp only [ids, List.nodup_cons] at distinct
    refine ⟨rfl, List.forall₂_same.mpr fun entry member => ⟨rfl, ?_⟩, ?_⟩
    · exact holds ⟨chain, nested⟩ (owner?_self _) entry member
    · refine SoundAmong.alike_self sub distinct.2 fun owner found => holds owner ?_
      have apart : chain.id ≠ owner.chain.id := fun same => distinct.1 (same ▸ mem_ids_of_ownerAmong? found)
      simp [owner?, apart, found]

private theorem SoundAmong.alike_self {related : Handle → Token → Token → Prop} :
    ∀ {nested : List (Nat × Option TokenStream)}, SoundAmong nested → (idsAmong nested).Nodup →
    (∀ owner, ownerAmong? owner.chain.id nested = some owner →
      ∀ entry ∈ owner.chain.entries, related entry.1 entry.2 entry.2) → AlikeAmong related nested nested
  | [], _, _, _ => rfl
  | (_, some s) :: rest, ⟨first, others⟩, distinct, holds => by
    simp only [idsAmong, List.nodup_append'] at distinct
    refine ⟨s, rest, rfl, first.alike_self distinct.1 fun owner found => holds owner ?_,
      SoundAmong.alike_self others distinct.2.1 fun owner found => holds owner ?_⟩
    · simp [ownerAmong?, found]
    · have missing : s.owner? owner.chain.id = none := by
        cases inner : s.owner? owner.chain.id with
        | none => rfl
        | some other => exact absurd (mem_ids_of_ownerAmong? found) (distinct.2.2 (mem_ids_of_owner? inner))
      simp [ownerAmong?, missing, found]

end

/-- The literal at the end of a way along aliases. -/
inductive StandsFor (s : TokenStream) : Literal → Literal → Prop
  | plain {literal : Literal} (own : literal.aliasTarget? = none) : StandsFor s literal literal
  | follow {literal last : Literal} {target : Handle} {token : Token}
      (points : literal.aliasTarget? = some target) (found : s.get? target = some token)
      (rest : StandsFor s token.literal last) : StandsFor s literal last

theorem StandsFor.plain_last {s : TokenStream} {first last : Literal} (stands : s.StandsFor first last) :
    last.aliasTarget? = none := by
  induction stands with
  | plain own => exact own
  | follow _ _ _ ih => exact ih

theorem StandsFor.of_plain {s : TokenStream} {first last : Literal} (stands : s.StandsFor first last)
    (own : first.aliasTarget? = none) : last = first := by
  cases stands with
  | plain => rfl
  | follow points _ _ => simp [own] at points

theorem StandsFor.unique {s : TokenStream} {first last last' : Literal} (stands : s.StandsFor first last)
    (stands' : s.StandsFor first last') : last = last' := by
  induction stands with
  | plain own => exact (stands'.of_plain own).symm
  | follow points found _ ih =>
    cases stands' with
    | plain own => cases points.symm.trans own
    | follow points' found' rest =>
      obtain rfl := Option.some.inj (points.symm.trans points')
      obtain rfl := Option.some.inj (found.symm.trans found')
      exact ih rest

theorem standsFor_of_resolveFrom {s : TokenStream} {steps : Nat} {first last : Literal}
    (resolved : s.resolveFrom steps first = some last) : s.StandsFor first last := by
  induction steps generalizing first with
  | zero => cases resolved
  | succ steps ih =>
    unfold resolveFrom at resolved
    cases points : first.aliasTarget? with
    | none =>
      have same : first = last := by simpa [points] using resolved
      exact same ▸ .plain points
    | some target =>
      cases found : s.get? target with
      | none => simp [points, found] at resolved
      | some token => exact .follow points found (ih (by simpa [points, found] using resolved))

/-- The token is the same, but an alias may have become a copy of what it stood for. -/
def Kept (s : TokenStream) (h : Handle) (old new : Token) : Prop :=
  s.get? h = some old ∧
    ∃ literal, new = { old with literal } ∧ (literal = old.literal ∨ s.StandsFor old.literal literal)

/-- Nothing but aliases that became copies tells the stream from an earlier one. -/
structure Settled (before after : TokenStream) : Prop where
  sound : after.Sound
  alike : Alike (Kept before) before after

/-- Tokens outside of a list that are aliases of one in it, each with the one that it leads to. -/
def aliasesOf (s : TokenStream) (targets : List Handle) : List (Handle × Handle) :=
  s.deepEntries.filterMap fun (h, token) =>
    if targets.contains h then none
    else token.literal.aliasTarget?.bind fun target =>
      if targets.contains target then some (h, target) else none

theorem mem_aliasesOf {s : TokenStream} {targets : List Handle} {pair : Handle × Handle} :
    pair ∈ s.aliasesOf targets ↔ ∃ token, (pair.1, token) ∈ s.deepEntries ∧ token.literal.aliasTarget? = some pair.2 ∧
    pair.1 ∉ targets ∧ pair.2 ∈ targets := by
  constructor
  · intro member
    obtain ⟨⟨h, token⟩, inside, chosen⟩ := List.mem_filterMap.mp member
    simp only at chosen
    split_ifs at chosen with outside
    obtain ⟨target, points, chosen⟩ := Option.bind_eq_some_iff.mp chosen
    split_ifs at chosen with held
    cases chosen
    exact ⟨token, inside, points, by simpa using outside, by simpa using held⟩
  · rintro ⟨token, inside, points, outside, held⟩
    exact List.mem_filterMap.mpr ⟨(pair.1, token), inside, by simp [outside, points, held]⟩

namespace Settled

variable {before after : TokenStream}

theorem refl (sound : before.Sound) (distinct : before.ids.Nodup) : Settled before before := by
  refine ⟨sound, sound.alike_self distinct fun owner held entry member => ?_⟩
  have chain := (sound.owner? held).chain.chain_eq member
  exact ⟨(sound.get?_eq_some _ _).mpr ⟨owner, chain ▸ held, member⟩, entry.2.literal, rfl, .inl rfl⟩

/-- The way along aliases ends where it ended before, since copies only shorten it. -/
theorem standsFor (settled : Settled before after) (sound : before.Sound) {first last : Literal}
    (stands : after.StandsFor first last) : before.StandsFor first last := by
  induction stands with
  | plain own => exact .plain own
  | @follow literal last target token points found rest ih =>
    have pair := settled.alike.get? sound settled.sound target
    rw [found] at pair
    cases stored : before.get? target with
    | none => simp [stored] at pair
    | some old =>
      rw [stored] at pair
      obtain ⟨_, copy, rfl, same | copied⟩ := Option.rel_some_some.mp pair
      · exact .follow points stored (same ▸ ih)
      · have ended : last = copy := ih.of_plain copied.plain_last
        exact .follow points stored (ended ▸ copied)

/-- What was read at the end of a way is read there, and no later. -/
theorem resolveFrom (settled : Settled before after) (sound : before.Sound) {steps : Nat} {first last : Literal}
    (resolved : before.resolveFrom steps first = some last) : after.resolveFrom steps first = some last := by
  induction steps generalizing first with
  | zero => cases resolved
  | succ steps ih =>
    rw [TokenStream.resolveFrom] at resolved ⊢
    cases points : first.aliasTarget? with
    | none => simpa [points] using resolved
    | some target =>
      simp only [points] at resolved ⊢
      have pair := settled.alike.get? sound settled.sound target
      cases stored : before.get? target with
      | none => simp [stored] at resolved
      | some old =>
        simp only [stored] at resolved
        rw [stored] at pair
        cases found : after.get? target with
        | none => simp [found] at pair
        | some new =>
          rw [found] at pair
          obtain ⟨_, literal, rfl, same | copied⟩ := Option.rel_some_some.mp pair
          · exact same ▸ ih resolved
          · obtain rfl := copied.unique (standsFor_of_resolveFrom resolved)
            cases steps with
            | zero => cases resolved
            | succ steps => simp [TokenStream.resolveFrom, copied.plain_last]

theorem resolve? (settled : Settled before after) (sound : before.Sound) {h : Handle} {last : Literal}
    (resolved : before.resolve? h = some last) : after.resolve? h = some last := by
  obtain ⟨token, stored, ended⟩ := Option.bind_eq_some_iff.mp resolved
  have whole : before.resolveFrom 9 (.ofAlias h) = some last := by
    rw [TokenStream.resolveFrom]
    simpa [Literal.aliasTarget?, Literal.ofAlias, stored] using ended
  have later := settled.resolveFrom sound whole
  rw [TokenStream.resolveFrom] at later
  simp only [Literal.aliasTarget?, Literal.ofAlias] at later
  cases found : after.get? h with
  | none => simp [found] at later
  | some token => simpa [TokenStream.resolve?, found] using later

theorem copyTarget (settled : Settled before after) (sound : before.Sound) {h target : Handle} {token : Token}
    (stored : before.get? h = some token) (points : token.literal.aliasTarget? = some target) :
    Settled before (after.copyTarget h target) := by
  unfold TokenStream.copyTarget
  cases resolved : after.resolve? target with
  | none => exact settled
  | some literal =>
    obtain ⟨aimed, found, ended⟩ := Option.bind_eq_some_iff.mp resolved
    have stands : before.StandsFor token.literal literal :=
      settled.standsFor sound (.follow points found (standsFor_of_resolveFrom ended))
    obtain ⟨after', alike⟩ := settled.sound.modify_touched h fun token => { token with literal }
    refine ⟨after', settled.alike.trans ?_ alike⟩
    rintro other old middle new kept (rfl | ⟨rfl, _, rfl⟩)
    · exact kept
    · obtain ⟨here, copy, rfl, _⟩ := kept
      obtain rfl : old = token := Option.some.inj (here.symm.trans stored)
      exact ⟨here, literal, rfl, .inr stands⟩

/-- A token that is still an alias has been one before, with the same target. -/
theorem points_before (settled : Settled before after) (sound : before.Sound) {h target : Handle} {token : Token}
    (stored : after.get? h = some token) (points : token.literal.aliasTarget? = some target) :
    ∃ old, before.get? h = some old ∧ old.literal.aliasTarget? = some target := by
  have pair := settled.alike.get? sound settled.sound h
  rw [stored] at pair
  cases found : before.get? h with
  | none => simp [found] at pair
  | some old =>
    rw [found] at pair
    obtain ⟨_, copy, rfl, same | copied⟩ := Option.rel_some_some.mp pair
    · exact ⟨old, rfl, same ▸ points⟩
    · simp [copied.plain_last] at points

private theorem foldl_copyTarget (settled : Settled before after) (sound : before.Sound)
    (aliases : List (Handle × Handle))
    (all : ∀ pair ∈ aliases, ∃ token, before.get? pair.1 = some token ∧
      token.literal.aliasTarget? = some pair.2) :
    Settled before (aliases.foldl (fun s (h, target) => s.copyTarget h target) after) := by
  induction aliases generalizing after with
  | nil => exact settled
  | cons pair rest ih =>
    obtain ⟨token, stored, points⟩ := all pair (by simp)
    exact ih (settled.copyTarget sound stored points) fun other member => all other (by simp [member])

/-- Tokens that are aliases of some that will leave take copies. -/
theorem detachAliases (settled : Settled before after) (sound : before.Sound) (distinct : before.ids.Nodup)
    (targets : List Handle) : Settled before (after.detachAliases targets) := by
  refine settled.foldl_copyTarget sound (after.aliasesOf targets) fun pair member => ?_
  obtain ⟨token, inside, points, _⟩ := mem_aliasesOf.mp member
  exact settled.points_before sound (settled.sound.get?_of_deep (settled.alike.ids_eq ▸ distinct) inside) points

/-- A moved token whose alias leads elsewhere takes a copy. -/
theorem settleAlias (settled : Settled before after) (sound : before.Sound) (moved : List Handle) (h : Handle) :
    Settled before (after.settleAlias moved h) := by
  unfold TokenStream.settleAlias
  cases found : (after.get? h).bind (·.literal.aliasTarget?) with
  | none => exact settled
  | some target =>
    obtain ⟨token, stored, points⟩ := Option.bind_eq_some_iff.mp found
    obtain ⟨old, here, same⟩ := settled.points_before sound stored points
    simp only
    split_ifs
    · exact settled
    · exact settled.copyTarget sound here same

theorem foldl_settleAlias (settled : Settled before after) (sound : before.Sound) (moved handles : List Handle) :
    Settled before (handles.foldl (TokenStream.settleAlias moved) after) := by
  induction handles generalizing after with
  | nil => exact settled
  | cons h rest ih => exact ih (settled.settleAlias sound moved h)

end Settled

end YaraRules.TokenStream

import YaraRules.Proofs.StreamReports
import YaraRules.Proofs.StreamTargets

/-! Texts of tokens while others are erased or moved. Aliases of the tokens of a range become copies before the
range goes, and what moves is redirected, so texts stay. What an alias stands for is lost in one case: if the way
along aliases leads to a token that goes without being in the range, because it is in a stream that a token of the
range owns. -/

namespace YaraRules.TokenStream

variable {s calm root t after source joined : TokenStream} {h k target first last : Handle} {a b token : Token}
  {handles : List Handle} {literal final : Literal} {names : Renaming}

/-! ### Ways along aliases -/

/-- The token is no alias, or the way along its aliases leads to a literal. -/
def Legible (s : TokenStream) (a : Token) : Prop :=
  ∀ target, a.literal.aliasTarget? = some target → (s.resolve? target).isSome

private theorem resolveFrom_nine (s : TokenStream) (literal : Literal) :
    s.resolveFrom 9 literal = match literal.aliasTarget? with
      | some target => s.resolve? target
      | none => some literal := by
  rw [resolveFrom]
  cases literal.aliasTarget? with
  | none => rfl
  | some target =>
    simp only [resolve?]
    cases s.get? target <;> rfl

private theorem textOf_eq (s : TokenStream) (a : Token) :
    s.textOf a = writtenAs a.kind (((s.resolveFrom 9 a.literal).map Literal.text).getD "") := by
  rw [textOf, resolveFrom_nine]
  cases a.literal.aliasTarget? <;> rfl

private theorem legible_iff : s.Legible a ↔ ∃ final, s.resolveFrom 9 a.literal = some final := by
  rw [resolveFrom_nine, Legible]
  cases a.literal.aliasTarget? with
  | none => simp
  | some target => simp [Option.isSome_iff_exists]

private theorem resolveFrom_plain {n : Nat} (plain : literal.aliasTarget? = none) :
    s.resolveFrom (n + 1) literal = some literal := by
  rw [resolveFrom, plain]

private theorem resolveFrom_alias {n : Nat} (points : literal.aliasTarget? = some target) :
    s.resolveFrom (n + 1) literal = (s.get? target).bind fun token => s.resolveFrom n token.literal := by
  rw [resolveFrom, points]
  dsimp only
  cases s.get? target <;> rfl

private theorem resolveFrom_more {n m : Nat} (more : n ≤ m) (resolved : s.resolveFrom n literal = some final) :
    s.resolveFrom m literal = some final := by
  induction n generalizing m literal with
  | zero => cases resolved
  | succ n ih =>
    obtain ⟨m, rfl⟩ : ∃ m', m = m' + 1 := ⟨m - 1, by omega⟩
    cases points : literal.aliasTarget? with
    | none =>
      rw [resolveFrom_plain points] at resolved ⊢
      exact resolved
    | some target =>
      rw [resolveFrom_alias points] at resolved ⊢
      obtain ⟨token, found, rest⟩ := Option.bind_eq_some_iff.mp resolved
      exact Option.bind_eq_some_iff.mpr ⟨token, found, ih (by omega) rest⟩

theorem Grows.resolveFrom (grows : Grows s after) {n : Nat} (resolved : s.resolveFrom n literal = some final) :
    after.resolveFrom n literal = some final := by
  induction n generalizing literal with
  | zero => cases resolved
  | succ n ih =>
    cases points : literal.aliasTarget? with
    | none =>
      rw [resolveFrom_plain points] at resolved ⊢
      exact resolved
    | some target =>
      rw [resolveFrom_alias points] at resolved ⊢
      obtain ⟨token, found, rest⟩ := Option.bind_eq_some_iff.mp resolved
      exact Option.bind_eq_some_iff.mpr ⟨token, grows _ _ found, ih rest⟩

/-- Each alias on the way leads to a token of the range, of which it takes a copy, or to one that is held
afterwards as well. -/
inductive Bridged (s : TokenStream) (handles : List Handle) (held : Handle → Prop) : Literal → Prop
  | own {literal : Literal} (plain : literal.aliasTarget? = none) : Bridged s handles held literal
  | copy {literal : Literal} {target : Handle} (points : literal.aliasTarget? = some target)
      (ranged : target ∈ handles) :
    Bridged s handles held literal
  | step {literal : Literal} {target : Handle} {token : Token} (points : literal.aliasTarget? = some target)
    (found : s.get? target = some token) (kept : held target)
    (rest : Bridged s handles held token.literal) : Bridged s handles held literal

namespace Bridged

variable {held held' : Handle → Prop}

theorem onward (bridged : Bridged s handles held literal) (points : literal.aliasTarget? = some target)
    (outside : target ∉ handles) (found : s.get? target = some token) : held target ∧
    Bridged s handles held token.literal := by
  cases bridged with
  | own plain => cases plain.symm.trans points
  | copy points' ranged =>
    obtain rfl := Option.some.inj (points.symm.trans points')
    exact absurd ranged outside
  | step points' found' kept rest =>
    obtain rfl := Option.some.inj (points.symm.trans points')
    obtain rfl := Option.some.inj (found.symm.trans found')
    exact ⟨kept, rest⟩

theorem mono {handles' : List Handle} (bridged : Bridged s handles held literal) (more : ∀ k, held k → held' k)
    (ranges : handles ⊆ handles') : Bridged s handles' held' literal := by
  induction bridged with
  | own plain => exact .own plain
  | copy points ranged => exact .copy points (ranges ranged)
  | step points found kept _ ih => exact .step points found (more _ kept) ih

private theorem of_held (all : ∀ k b, s.get? k = some b → k ∈ handles ∨ held k) {n : Nat}
    (resolved : s.resolveFrom n literal = some final) : Bridged s handles held literal := by
  induction n generalizing literal with
  | zero => cases resolved
  | succ n ih =>
    cases points : literal.aliasTarget? with
    | none => exact .own points
    | some target =>
      rw [resolveFrom_alias points] at resolved
      obtain ⟨token, found, rest⟩ := Option.bind_eq_some_iff.mp resolved
      exact (all _ _ found).elim (.copy points) fun kept => .step points found kept (ih rest)

/-- A way that leads to a literal is bridged in a stream with more tokens if it is bridged here. -/
theorem grows (grows : Grows s after) {n : Nat} (resolved : s.resolveFrom n literal = some final) :
    Bridged after handles held literal ↔ Bridged s handles held literal := by
  constructor
  · intro bridged
    induction n generalizing literal with
    | zero => cases resolved
    | succ n ih =>
      cases points : literal.aliasTarget? with
      | none => exact .own points
      | some target =>
        by_cases ranged : target ∈ handles
        · exact .copy points ranged
        · rw [resolveFrom_alias points] at resolved
          obtain ⟨token, found, rest⟩ := Option.bind_eq_some_iff.mp resolved
          obtain ⟨kept, onward⟩ := bridged.onward points ranged (grows _ _ found)
          exact .step points found kept (ih rest onward)
  · intro bridged
    clear resolved
    induction bridged with
    | own plain => exact .own plain
    | copy points ranged => exact .copy points ranged
    | step points found kept _ ih => exact .step points (grows _ _ found) kept ih

end Bridged

/-- Each legible token of a stream that is held afterwards has the text that it had if its way is bridged, and
none otherwise. -/
def Retold (s : TokenStream) (handles : List Handle) (root : TokenStream) : Prop :=
  ∀ h a, s.get? h = some a → (root.get? h).isSome → s.Legible a →
    (Bridged s handles (fun k => (root.get? k).isSome) a.literal → root.text h = s.text h) ∧
      (¬ Bridged s handles (fun k => (root.get? k).isSome) a.literal → root.text h = writtenAs a.kind "")

/-- Each legible token has the text that it had. -/
def KeepsTexts (s after : TokenStream) : Prop := ∀ h a, s.get? h = some a → s.Legible a → after.text h = s.text h

private theorem Grows.keepsTexts (grows : Grows s after) : KeepsTexts s after := by
  intro h a stored legible
  obtain ⟨final, resolved⟩ := legible_iff.mp legible
  rw [text_eq _ stored, text_eq _ (grows h a stored), textOf_eq, textOf_eq, resolved, grows.resolveFrom resolved]

/-! ### Aliases that become copies -/

/-- A token that is an alias was the same before, one that is none has the literal at the end of its way. -/
theorem Kept.ended (kept : Kept s h a b) {n : Nat} (resolved : s.resolveFrom n a.literal = some final) :
    b.kind = a.kind ∧ (b = a ∨ Plain b ∧ b.literal = final) := by
  obtain ⟨_, literal, rfl, rfl | stands⟩ := kept
  · exact ⟨rfl, .inl rfl⟩
  · exact ⟨rfl, .inr ⟨stands.plain_last, stands.unique (standsFor_of_resolveFrom resolved)⟩⟩

private theorem settleAlias_alias {moved : List Handle} {aimed : Handle}
    (stored : (s.settleAlias moved h).get? k = some a)
    (points : a.literal.aliasTarget? = some aimed) : s.get? k = some a := by
  unfold settleAlias at stored
  split at stored
  · split_ifs at stored
    · exact stored
    · exact copyTarget_alias stored points
  · exact stored

private theorem foldl_settleAlias_alias {moved handles : List Handle} {aimed : Handle}
    (stored : (handles.foldl (settleAlias moved) s).get? k = some a)
    (points : a.literal.aliasTarget? = some aimed) : s.get? k = some a := by
  induction handles generalizing s with
  | nil => exact stored
  | cons h rest ih => exact settleAlias_alias (ih stored) points

private theorem Settled.foldl_settleAlias_inward {before : TokenStream} (settled : Settled before s)
    (sound : before.Sound) {moved handles : List Handle} (member : k ∈ handles)
    (leads : (before.resolve? target).isSome) (stored : (handles.foldl (TokenStream.settleAlias moved) s).get? k =
    some b) (points : b.literal.aliasTarget? = some target) : target ∈ moved := by
  induction handles generalizing s with
  | nil => cases member
  | cons h rest ih =>
    rcases List.mem_cons.mp member with rfl | later
    · have now : (s.settleAlias moved k).get? k = some b := foldl_settleAlias_alias stored points
      have aimed : (s.get? k).bind (·.literal.aliasTarget?) = some target := by
        simp [settleAlias_alias now points, points]
      by_contra outside
      have same : s.settleAlias moved k = s.copyTarget k target := by simp [TokenStream.settleAlias, aimed, outside]
      rw [same] at now
      exact settled.copyTarget_plain sound leads now target points
    · exact ih (Settled.settleAlias settled sound moved h) later stored

private theorem get?_copyTarget (apart : k ≠ h) : (s.copyTarget h target).get? k = s.get? k := by
  unfold copyTarget
  split
  · rw [get?_setLiteral, if_neg apart]
  · rfl

private theorem get?_foldl_copyTarget {aliases : List (Handle × Handle)} (outside : k ∉ aliases.map (·.1)) :
    (aliases.foldl (fun s (h, target) => s.copyTarget h target) s).get? k = s.get? k := by
  induction aliases generalizing s with
  | nil => rfl
  | cons pair rest ih =>
    rw [List.map_cons, List.mem_cons, not_or] at outside
    exact (ih outside.2).trans (get?_copyTarget outside.1)

private theorem get?_foldl_settleAlias {moved handles : List Handle} (outside : k ∉ handles) :
    (handles.foldl (settleAlias moved) s).get? k = s.get? k := by
  induction handles generalizing s with
  | nil => rfl
  | cons h rest ih =>
    rw [List.mem_cons, not_or] at outside
    refine (ih outside.2).trans ?_
    unfold settleAlias
    split
    · split_ifs
      · rfl
      · exact get?_copyTarget outside.1
    · rfl

/-- No alias outside of a range leads into it any more, and those that did not are as they were. -/
structure Freed (s calm : TokenStream) (handles : List Handle) : Prop where
  settled : Settled s calm
  aside : ∀ {h b target}, h ∉ handles → target ∈ handles → (s.resolve? target).isSome → calm.get? h = some b →
    b.literal.aliasTarget? ≠ some target
  same : ∀ {h a}, h ∉ handles → s.get? h = some a → (∀ target ∈ handles, a.literal.aliasTarget? ≠ some target) →
    calm.get? h = some a

theorem Settled.freed (settled : Settled s calm) (sound : s.Sound) (distinct : s.ids.Nodup)
    (others : ∀ h ∉ handles, calm.get? h = s.get? h) : Freed s (calm.detachAliases handles) handles where
  settled := settled.detachAliases sound distinct handles
  aside outside held leads stored := settled.detachAliases_aside sound distinct outside held leads stored
  same {h a} outside stored aside := by
    refine (get?_foldl_copyTarget fun listed => ?_).trans ((others h outside).trans stored)
    obtain ⟨pair, member, rfl⟩ := List.mem_map.mp listed
    obtain ⟨token, inside, points, _, ranged⟩ := mem_aliasesOf.mp member
    have found := settled.sound.get?_of_deep (settled.alike.ids_eq ▸ distinct) inside
    rw [others _ outside, stored] at found
    exact aside _ ranged (Option.some.inj found ▸ points)

private theorem Sound.freed_detachAliases (sound : s.Sound) (distinct : s.ids.Nodup) (handles : List Handle) :
    Freed s (s.detachAliases handles) handles :=
  (Settled.refl sound distinct).freed sound distinct fun _ _ => rfl

private theorem Sound.freed_calmed (sound : s.Sound) (distinct : s.ids.Nodup) (handles : List Handle) :
    Freed s (s.calmed handles) handles :=
  ((Settled.refl sound distinct).foldl_settleAlias sound handles handles).freed sound distinct
    fun _ => get?_foldl_settleAlias

theorem Settled.kept (settled : Settled s after) (sound : s.Sound) (stored : s.get? h = some a) :
    ∃ b, after.get? h = some b ∧ Kept s h a b := by
  have pair := settled.alike.get? sound settled.sound h
  rw [stored] at pair
  cases found : after.get? h with
  | none => simp [found] at pair
  | some b =>
    rw [found] at pair
    exact ⟨b, rfl, Option.rel_some_some.mp pair⟩

private theorem Settled.keepsTexts (settled : Settled s after) (sound : s.Sound) : KeepsTexts s after := by
  intro h a stored legible
  obtain ⟨final, resolved⟩ := legible_iff.mp legible
  obtain ⟨b, found, kept⟩ := settled.kept sound stored
  obtain ⟨kind, rfl | ⟨plain, rfl⟩⟩ := kept.ended resolved
  · rw [text_eq _ stored, text_eq _ found, textOf_eq, textOf_eq, resolved, settled.resolveFrom sound resolved]
  · rw [text_eq _ stored, text_eq _ found, textOf_eq, textOf_eq, resolved, kind, resolveFrom_plain plain]

/-- Tokens of one stream that are held in another one as well are the same there. -/
def Agrees (calm root : TokenStream) : Prop := ∀ h b c, calm.get? h = some b → root.get? h = some c → c = b

/-- Where a way is bridged it leads to the same literal, where not it leads nowhere. -/
theorem Freed.reads (freed : Freed s calm handles) (sound : s.Sound) (agrees : Agrees calm root) {n : Nat} (few : n ≤ 9)
    (outside : h ∉ handles)
    (stored : s.get? h = some a) (now : calm.get? h = some b) (resolved : s.resolveFrom n a.literal = some final) :
    (Bridged s handles (fun k => (root.get? k).isSome) a.literal → root.resolveFrom n b.literal = some final) ∧
      (¬ Bridged s handles (fun k => (root.get? k).isSome) a.literal → root.resolveFrom n b.literal = none) := by
  induction n generalizing h a b with
  | zero => cases resolved
  | succ n ih =>
    obtain ⟨b', found, kept⟩ := freed.settled.kept sound stored
    obtain rfl := Option.some.inj (now.symm.trans found)
    cases points : a.literal.aliasTarget? with
    | none =>
      obtain rfl := kept.of_plain points
      rw [resolveFrom_plain points] at resolved ⊢
      exact ⟨fun _ => resolved, fun not => absurd (.own points) not⟩
    | some target =>
      have leads : (s.resolve? target).isSome := by
        have more := resolveFrom_more few resolved
        rw [resolveFrom_nine, points] at more
        exact Option.isSome_of_eq_some more
      by_cases ranged : target ∈ handles
      · refine ⟨fun _ => ?_, fun not => absurd (.copy points ranged) not⟩
        obtain ⟨_, rfl | ⟨plain, rfl⟩⟩ := kept.ended resolved
        · exact absurd points (freed.aside outside ranged leads now)
        · exact resolveFrom_plain plain
      · have unchanged := freed.same outside stored fun other inside aimed =>
          ranged (Option.some.inj (points.symm.trans aimed) ▸ inside)
        obtain rfl : b = a := Option.some.inj (now.symm.trans unchanged)
        rw [resolveFrom_alias points] at resolved ⊢
        obtain ⟨token, there, rest⟩ := Option.bind_eq_some_iff.mp resolved
        obtain ⟨token', there', _⟩ := freed.settled.kept sound there
        obtain ⟨onward, lost⟩ := ih (by omega) ranged there there' rest
        cases held : root.get? target with
        | none =>
          refine ⟨fun bridged => ?_, fun _ => rfl⟩
          simpa [held] using (bridged.onward points ranged there).1
        | some c =>
          obtain rfl := agrees _ _ _ there' held
          refine ⟨fun bridged => onward (bridged.onward points ranged there).2, fun not => lost fun bridged => not ?_⟩
          exact .step points there (by simp [held]) bridged

private theorem Freed.retold (freed : Freed s calm handles) (sound : s.Sound) (agrees : Agrees calm root)
    (gone : ∀ h ∈ handles, root.get? h = none) : Retold s handles root := by
  intro h a stored there legible
  obtain ⟨final, resolved⟩ := legible_iff.mp legible
  obtain ⟨c, held⟩ := Option.isSome_iff_exists.mp there
  obtain ⟨b, now, kept⟩ := freed.settled.kept sound stored
  obtain rfl := agrees _ _ _ now held
  have outside : h ∉ handles := fun inside => by cases (gone h inside).symm.trans held
  obtain ⟨same, lost⟩ := freed.reads sound agrees (Nat.le_refl 9) outside stored now resolved
  rw [text_eq _ stored, text_eq _ held, textOf_eq, textOf_eq, (kept.ended resolved).1, resolved]
  exact ⟨fun bridged => by rw [same bridged], fun not => by rw [lost not]; rfl⟩

/-- After an erasure a token has no text if its way leads into a stream that is gone, and the text that it had
otherwise. -/
theorem Sound.erase_retold (sound : s.Sound) (distinct : s.ids.Nodup) (done : s.erase first last = .ok after) :
    ∃ handles, s.rangeHandles first last = .ok handles ∧ Retold s handles after := by
  obtain ⟨handles, ranged, left⟩ := sound.get?_detached distinct done
  refine ⟨handles, ranged, (sound.freed_detachAliases distinct handles).retold sound (fun h b c now held => ?_)
    fun h inside => ?_⟩
  · exact Option.some.inj ((left h c held).2.symm.trans now)
  · exact Option.eq_none_iff_forall_ne_some.mpr fun c held => (left h c held).1 inside

/-! ### Moves -/

/-- A range went from one stream of a group to another. -/
structure Passage (t s : TokenStream) (before : Option Handle) (first last : Handle) (names : Renaming)
    (t' s' : TokenStream)
    (ahead behind front middle back moved : List Piece) : Prop extends
    Handed t before (s.calmed (middle.map (·.1))) first last names t' s' ahead behind front middle back moved where
  sound : t.Sound
  sound' : s.Sound
  distinct : (t.ids ++ s.ids).Nodup
  after : t'.Sound
  after' : s'.Sound
  id : t'.chain.id = t.chain.id
  id' : s'.chain.id = s.chain.id
  total : ∀ id, t'.ids.count id + s'.ids.count id = t.ids.count id + s.ids.count id

private theorem Sound.passage {t s t' s' : TokenStream} {before : Option Handle} (sound : t.Sound) (sound' : s.Sound)
    (distinct : (t.ids ++ s.ids).Nodup)
    (own : first.chain = s.chain.id) (done : t.moveRange before s first last = (.ok (names, t'), s')) :
    ∃ ahead behind front middle back moved, s.rangeHandles first last = .ok (middle.map (·.1)) ∧
      Passage t s before first last names t' s' ahead behind front middle back moved := by
  obtain ⟨after, after', id, id', total, _, ranged, ahead, behind, front, middle, back, moved, rfl, handed⟩ :=
    sound.moveRange_handed sound' (List.nodup_append'.mp distinct).2.1 own done
  exact ⟨ahead, behind, front, middle, back, moved, ranged, handed, sound, sound', distinct, after,
    after', id, id', total⟩

namespace Passage

variable {s t t' s' : TokenStream} {before : Option Handle} {ahead behind front middle back moved : List Piece}
  (passage : Passage t s before first last names t' s' ahead behind front middle back moved)
include passage

theorem freed : Freed s (s.calmed (middle.map (·.1))) (middle.map (·.1)) :=
  passage.sound'.freed_calmed (List.nodup_append'.mp passage.distinct).2.1 _

private theorem calm_sound : (s.calmed (middle.map (·.1))).Sound := passage.freed.settled.sound

private theorem calm_ids : (s.calmed (middle.map (·.1))).ids = s.ids := passage.freed.settled.alike.ids_eq

private theorem calm_distinct : (s.calmed (middle.map (·.1))).ids.Nodup :=
  passage.calm_ids ▸ (List.nodup_append'.mp passage.distinct).2.1

private theorem calm_id : (s.calmed (middle.map (·.1))).chain.id = s.chain.id := passage.freed.settled.alike.id_eq

theorem once (id : ChainId) : t'.ids.count id + s'.ids.count id ≤ 1 := by
  have single := List.nodup_iff_count_le_one.mp passage.distinct id
  rw [List.count_append] at single
  exact passage.total id ▸ single

private theorem after_distinct : t'.ids.Nodup := List.nodup_iff_count_le_one.mpr fun id => by
  have single := passage.once id
  omega

private theorem after_distinct' : s'.ids.Nodup := List.nodup_iff_count_le_one.mpr fun id => by
  have single := passage.once id
  omega

theorem grows : Grows t t' := fun _ _ stored => by
  refine passage.sound.get?_subset passage.after
    (List.nodup_append'.mp passage.distinct).1 passage.after_distinct passage.id ?_ stored
  rw [passage.into, passage.now]
  exact List.append_subset.mpr ⟨List.subset_append_left _ _,
    List.subset_append_of_subset_right _ (List.subset_append_right _ _)⟩

private theorem left_behind (stored : s'.get? h = some a) : (s.calmed (middle.map (·.1))).get? h = some a := by
  refine passage.after'.get?_subset passage.calm_sound passage.after_distinct' passage.calm_distinct
    (passage.calm_id.trans passage.id'.symm) ?_ stored
  rw [passage.left, passage.split]
  exact List.append_subset.mpr ⟨List.subset_append_left _ _,
    List.subset_append_of_subset_right _ (List.subset_append_right _ _)⟩

private theorem gone' : ∀ h ∈ middle.map (·.1), s'.get? h = none := by
  intro h inside
  refine Option.eq_none_iff_forall_ne_some.mpr fun a stored => ?_
  obtain ⟨piece, member, rfl⟩ := List.mem_map.mp inside
  have top : piece.1.chain = s'.chain.id :=
    (passage.calm_sound.chain_of_view (by simp [passage.split, member])).trans (passage.calm_id.trans passage.id'.symm)
  obtain ⟨other, listed, ⟨same, _⟩ | ⟨below, _⟩⟩ := (passage.after'.get?_view passage.after_distinct').mp stored
  · have nodup := passage.calm_sound.handles_nodup
    rw [passage.split, List.map_append, List.map_append] at nodup
    rw [passage.left] at listed
    obtain ⟨_, rest, apart⟩ := List.nodup_append'.mp nodup
    rcases List.mem_append.mp listed with early | late
    · exact apart (List.mem_map_of_mem early) (List.mem_append_left _ (same ▸ inside))
    · exact (List.nodup_append'.mp rest).2.2 inside (same ▸ List.mem_map_of_mem late)
  · exact below top

/-- Streams of the source are none of the target. -/
theorem apart {id : ChainId} (inside : id ∈ s.ids) : id ∉ t.ids :=
  fun outside => (List.nodup_append'.mp passage.distinct).2.2 outside inside

/-- The piece that a piece of the range became, before aliases were redirected. -/
theorem matched {piece : Piece} (member : piece ∈ middle) :
    ∃ arrived ∈ moved, arrived.1 = names.apply piece.1 ∧ arrived.2 = piece.2 := by
  have lengths : middle.length = moved.length := by simpa using (congrArg List.length passage.contents).symm
  have nodup : (middle.map (·.1)).Nodup := by
    have whole := passage.calm_sound.handles_nodup
    rw [passage.split, List.map_append, List.map_append] at whole
    exact (List.nodup_append'.mp (List.nodup_append'.mp whole).2.1).1
  have named := List.forall₂_iff_zip.mp (apply_renamed passage.pairs nodup lengths)
  have contents : List.Forall₂ Eq (moved.map (·.2)) (middle.map (·.2)) := List.forall₂_eq_eq_eq ▸ passage.contents
  have same := (List.forall₂_map_left_iff.mp (List.forall₂_map_right_iff.mp contents)).flip
  have both : List.Forall₂ (fun old new : Piece => new.1 = names.apply old.1 ∧ new.2 = old.2) middle moved :=
    List.forall₂_iff_zip.mpr ⟨lengths, fun pair => ⟨named.2 pair, (List.forall₂_iff_zip.mp same).2 pair⟩⟩
  exact mem_of_forall₂ both.flip member

private theorem mem_now {arrived : Piece} (listed : arrived ∈ moved) : names.redirectPiece arrived ∈ t'.view := by
  rw [passage.now]
  exact List.mem_append_right _ (List.mem_append_left _ (List.mem_map_of_mem listed))

/-- A token below a piece is there after the move if the piece moved. -/
theorem below {piece : Piece} {sub : TokenStream} (member : piece ∈ middle) (owned : piece.2.2 = some sub)
    (foreign : h.chain ∉ t.ids) (stored : sub.get? h = some a) : t'.get? h = some a := by
  obtain ⟨arrived, listed, _, same⟩ := passage.matched member
  refine (passage.after.get?_view passage.after_distinct).mpr ⟨_, passage.mem_now listed,
    .inr ⟨fun top => ?_, sub, ?_, stored⟩⟩
  · exact foreign (top.trans passage.id ▸ t.id_mem_ids)
  · exact (congrArg (·.2) same).trans owned

theorem agrees : Agrees (s.calmed (middle.map (·.1))) t' := by
  intro h b c now held
  have inside : h.chain ∈ s.ids := passage.calm_ids ▸ mem_ids_of_get? now
  obtain ⟨piece, member, here⟩ := (passage.after.get?_view passage.after_distinct).mp held
  have foreign := passage.apart inside
  have old (known : piece ∈ t.view) : t.get? h = some c :=
    (passage.sound.get?_view (List.nodup_append'.mp passage.distinct).1).mpr ⟨piece, known, passage.id ▸ here⟩
  rw [passage.now, List.mem_append, List.mem_append] at member
  rcases member with early | arrived | late
  · exact absurd (mem_ids_of_get? (old (by simp [passage.into, early]))) foreign
  · obtain ⟨piece, listed, rfl⟩ := List.mem_map.mp arrived
    rcases here with ⟨same, _⟩ | ⟨_, sub, owned, stored⟩
    · have top := passage.after.chain_of_view (passage.mem_now listed)
      exact absurd (same ▸ top.trans passage.id ▸ t.id_mem_ids) foreign
    · obtain ⟨origin, known, same⟩ : ∃ origin ∈ middle, origin.2 = piece.2 :=
        List.mem_map.mp (passage.contents ▸ List.mem_map_of_mem listed)
      have found : (s.calmed (middle.map (·.1))).get? h = some c := by
        refine (passage.calm_sound.get?_view passage.calm_distinct).mpr
          ⟨origin, by simp [passage.split, known], .inr ⟨fun top => ?_, sub, ?_, stored⟩⟩
        · -- The source would hold its own stream twice.
          have single := passage.once h.chain
          have here := List.count_pos_iff.mpr (mem_ids_of_get? held)
          have there := List.count_pos_iff.mpr (s'.id_mem_ids)
          rw [passage.id', ← passage.calm_id, ← top] at there
          omega
        · exact (congrArg (·.2) same).trans owned
      exact Option.some.inj (found.symm.trans now)
  · exact absurd (mem_ids_of_get? (old (by simp [passage.into, late]))) foreign

theorem gone : ∀ h ∈ middle.map (·.1), t'.get? h = none := by
  intro h inside
  refine Option.eq_none_iff_forall_ne_some.mpr fun a stored => ?_
  obtain ⟨piece, member, rfl⟩ := List.mem_map.mp inside
  have top : piece.1.chain = s.chain.id :=
    (passage.calm_sound.chain_of_view (by simp [passage.split, member])).trans passage.calm_id
  have single := passage.once s.chain.id
  have here := List.count_pos_iff.mpr (top ▸ mem_ids_of_get? stored)
  have there := List.count_pos_iff.mpr (passage.id' ▸ s'.id_mem_ids)
  omega

/-- A token of the range is found under its new handle, redirected. -/
theorem arrives (inside : h ∈ middle.map (·.1)) (now : (s.calmed (middle.map (·.1))).get? h = some b) :
    names.get? h = some (names.apply h) ∧ t'.get? (names.apply h) = some (names.redirect b) := by
  have lengths : middle.length = moved.length := by simpa using (congrArg List.length passage.contents).symm
  refine ⟨get?_renamed (keys_renamed passage.pairs lengths ▸ inside), ?_⟩
  obtain ⟨piece, member, rfl⟩ := List.mem_map.mp inside
  obtain ⟨arrived, listed, place, content⟩ := passage.matched member
  have stored : (s.calmed (middle.map (·.1))).get? piece.1 = some piece.2.1 :=
    (passage.calm_sound.get?_view passage.calm_distinct).mpr ⟨piece, by simp [passage.split, member], .inl ⟨rfl, rfl⟩⟩
  obtain rfl := Option.some.inj (stored.symm.trans now)
  refine (passage.after.get?_view passage.after_distinct).mpr ⟨_, passage.mem_now listed, .inl ⟨place, ?_⟩⟩
  exact congrArg (fun content => names.redirect content.1) content

/-- A token of the range that is an alias is one of another token of the range. -/
theorem inward (inside : h ∈ middle.map (·.1)) (stored : s.get? h = some a) (legible : s.Legible a)
    (now : (s.calmed (middle.map (·.1))).get? h = some b)
    (points : b.literal.aliasTarget? = some target) : target ∈ middle.map (·.1) := by
  have sound := passage.sound'
  have distinct := (List.nodup_append'.mp passage.distinct).2.1
  obtain ⟨old, here, aimed⟩ := passage.freed.settled.points_before sound now points
  obtain rfl := Option.some.inj (stored.symm.trans here)
  exact (Settled.refl sound distinct).foldl_settleAlias_inward sound inside (legible _ aimed)
    (foldl_copyTarget_alias now points) points

end Passage

/-- Tokens of a stream that went over are found under their new handles. Where one is still an alias, it is
one of another of them. -/
def Lands (s calm after : TokenStream) (names : Renaming) (moves : Handle → Prop) : Prop :=
  ∀ h a b, moves h → s.get? h = some a → s.Legible a → calm.get? h = some b → ∃ c, after.get? (names.apply h) = some c ∧
    c.kind = b.kind ∧
    (Plain b ∧ c.literal = b.literal ∨
      ∃ target, b.literal.aliasTarget? = some target ∧ c.literal.aliasTarget? =
        some (names.apply target) ∧ moves target)

theorem Lands.reads {moves : Handle → Prop} (lands : Lands s calm after names moves) (settled : Settled s calm)
    (sound : s.Sound) {n : Nat}
    (few : n ≤ 9) (moved : moves h) (stored : s.get? h = some a) (resolved : s.resolveFrom n a.literal = some final) :
    ∃ c, after.get? (names.apply h) = some c ∧ c.kind = a.kind ∧ after.resolveFrom n c.literal = some final ∧
      Bridged after [] (fun k => ∃ h, moves h ∧ (s.get? h).isSome ∧ k = names.apply h) c.literal := by
  induction n generalizing h a with
  | zero => cases resolved
  | succ n ih =>
    obtain ⟨b, now, kept⟩ := settled.kept sound stored
    obtain ⟨kind, same⟩ := kept.ended resolved
    have legible : s.Legible a := legible_iff.mpr ⟨final, resolveFrom_more few resolved⟩
    obtain ⟨c, found, kind', ⟨plain, literal⟩ | ⟨target, points, points', onward⟩⟩ :=
      lands h a b moved stored legible now
    · have ended : b.literal = final := by
        rcases same with rfl | ⟨_, rfl⟩
        · exact Option.some.inj ((resolveFrom_plain plain).symm.trans resolved)
        · rfl
      refine ⟨c, found, kind'.trans kind, ?_, .own (literal ▸ plain)⟩
      rw [literal, ended]
      exact resolveFrom_plain (ended ▸ plain)
    · rcases same with rfl | ⟨plain, _⟩
      · rw [resolveFrom_alias points] at resolved
        obtain ⟨token, there, rest⟩ := Option.bind_eq_some_iff.mp resolved
        obtain ⟨d, held, _, read, bridged⟩ := ih (by omega) onward there rest
        refine ⟨c, found, kind'.trans kind, ?_, .step points' held ⟨target, onward, by simp [there], rfl⟩ bridged⟩
        rw [resolveFrom_alias points', held]
        exact read
      · cases plain.symm.trans points

theorem Lands.text {moves : Handle → Prop} (lands : Lands s calm after names moves) (settled : Settled s calm)
    (sound : s.Sound) (moved : moves h) (stored : s.get? h = some a)
    (legible : s.Legible a) : after.text (names.apply h) = s.text h := by
  obtain ⟨final, resolved⟩ := legible_iff.mp legible
  obtain ⟨c, found, kind, read, _⟩ := lands.reads settled sound (Nat.le_refl 9) moved stored resolved
  rw [text_eq _ stored, text_eq _ found, textOf_eq, textOf_eq, read, resolved, kind]

namespace Passage

variable {s t t' s' : TokenStream} {before : Option Handle} {ahead behind front middle back moved : List Piece}
  (passage : Passage t s before first last names t' s' ahead behind front middle back moved)
include passage

theorem named : names.pairs.map (·.1) = middle.map (·.1) :=
  keys_renamed passage.pairs (by simpa using (congrArg List.length passage.contents).symm)

private theorem apply_other (outside : h ∉ middle.map (·.1)) : names.apply h = h := by
  rw [Renaming.apply, show names.get? h = none from lookup_of_not_mem (passage.named ▸ outside)]
  rfl

private theorem lands_range : Lands s (s.calmed (middle.map (·.1))) t' names (· ∈ middle.map (·.1)) := by
  intro h a b inside stored legible now
  obtain ⟨_, found⟩ := passage.arrives inside now
  cases points : b.literal.aliasTarget? with
  | none =>
    have same : names.redirect b = b := redirect_idle fun _ aimed => by cases points.symm.trans aimed
    exact ⟨b, same ▸ found, rfl, .inl ⟨points, rfl⟩⟩
  | some target =>
    have ranged := passage.inward inside stored legible now points
    obtain ⟨old, here, aimed⟩ := passage.freed.settled.points_before passage.sound' now points
    obtain rfl := Option.some.inj (stored.symm.trans here)
    obtain ⟨other, there, _⟩ := Option.bind_eq_some_iff.mp (Option.eq_some_of_isSome (legible _ aimed))
    obtain ⟨other', there', _⟩ := passage.freed.settled.kept passage.sound' there
    have redirected : names.redirect b = { b with literal := .ofAlias (names.apply target) } := by
      simp [Renaming.redirect, points, (passage.arrives ranged there').1]
    refine ⟨_, found, ?_, .inr ⟨target, rfl, ?_, ranged⟩⟩
    · rw [redirected]
    · rw [redirected]
      rfl

/-- If the whole source moved, every token did, and those below kept their handles. -/
theorem lands_whole (whole : front = [] ∧ back = []) :
    Lands s (s.calmed (middle.map (·.1))) t' names fun h => (s.get? h).isSome := by
  have stays (h : Handle) (outside : h ∉ middle.map (·.1)) : names.apply h = h := passage.apply_other outside
  intro h a b _ stored legible now
  by_cases inside : h ∈ middle.map (·.1)
  · obtain ⟨c, found, kind, same | ⟨target, points, aimed, ranged⟩⟩ :=
      passage.lands_range h a b inside stored legible now
    · exact ⟨c, found, kind, .inl same⟩
    · refine ⟨c, found, kind, .inr ⟨target, points, aimed, ?_⟩⟩
      obtain ⟨old, here, points⟩ := passage.freed.settled.points_before passage.sound' now points
      obtain rfl := Option.some.inj (stored.symm.trans here)
      obtain ⟨other, there, _⟩ := Option.bind_eq_some_iff.mp (Option.eq_some_of_isSome (legible _ points))
      simp [there]
  · have found : t'.get? h = some b := by
      obtain ⟨piece, member, here⟩ := (passage.calm_sound.get?_view passage.calm_distinct).mp now
      rw [passage.split, whole.1, whole.2, List.nil_append, List.append_nil] at member
      rcases here with ⟨rfl, _⟩ | ⟨_, sub, owned, held⟩
      · exact absurd (List.mem_map_of_mem member) inside
      · exact passage.below member owned (passage.apart (passage.calm_ids ▸ mem_ids_of_get? now)) held
    rw [stays h inside]
    cases points : b.literal.aliasTarget? with
    | none => exact ⟨b, found, rfl, .inl ⟨points, rfl⟩⟩
    | some target =>
      obtain ⟨old, here, aimed⟩ := passage.freed.settled.points_before passage.sound' now points
      obtain rfl := Option.some.inj (stored.symm.trans here)
      have outside : target ∉ middle.map (·.1) :=
        fun ranged => passage.freed.aside inside ranged (legible _ aimed) now points
      obtain ⟨other, there, _⟩ := Option.bind_eq_some_iff.mp (Option.eq_some_of_isSome (legible _ aimed))
      exact ⟨b, found, rfl, .inr ⟨target, rfl, (stays target outside).symm ▸ points, by simp [there]⟩⟩

end Passage

/-- What a move between two streams leaves of the texts: those of the target and of the range stay, and a
token that is left behind, or that went along below the range, keeps its text if its way is bridged. -/
structure Passed (t s : TokenStream) (handles : List Handle) (names : Renaming) (t' s' : TokenStream) : Prop where
  target : KeepsTexts t t'
  range : ∀ h new a, names.get? h = some new → s.get? h = some a → s.Legible a → t'.text new = s.text h
  behind : Retold s handles s'
  along : Retold s handles t'

private theorem Sound.moveRange_passed {t s t' s' : TokenStream} {before : Option Handle} (sound : t.Sound)
    (sound' : s.Sound) (distinct : (t.ids ++ s.ids).Nodup)
    (done : t.moveRange before s first last = (.ok (names, t'), s')) : ∃ handles,
    s.rangeHandles first last = .ok handles ∧ Passed t s handles names t' s' := by
  by_cases own : first.chain = s.chain.id
  · obtain ⟨ahead, behind, front, middle, back, moved, ranged, passage⟩ := sound.passage sound' distinct own done
    refine ⟨_, ranged, passage.grows.keepsTexts, fun h new a renamed stored legible => ?_, ?_, ?_⟩
    · have inside : h ∈ middle.map (·.1) := by
        rw [← passage.named]
        by_contra outside
        cases renamed.symm.trans (lookup_of_not_mem outside)
      have applied : names.apply h = new := by simp [Renaming.apply, renamed]
      exact applied ▸ passage.lands_range.text passage.freed.settled sound' inside stored legible
    · refine passage.freed.retold sound' (fun h b c now held => ?_) passage.gone'
      exact Option.some.inj ((passage.left_behind held).symm.trans now)
    · exact passage.freed.retold sound' passage.agrees passage.gone
  · -- The range is found below the source and stays.
    obtain ⟨rfl, empty, settled, _⟩ := moveRange_inner sound' (List.nodup_append'.mp distinct).2.1 own done
    obtain ⟨handles, ranged⟩ : ∃ handles, s.rangeHandles first last = .ok handles := by
      unfold TokenStream.moveRange at done
      cases checked : t'.checkedPosition before <;> cases ranged : s.rangeHandles first last
        <;> simp [checked, ranged] at done ⊢
    refine ⟨handles, ranged, fun _ _ _ _ => rfl,
      by simp [Renaming.get?, empty], fun h a stored _ legible => ?_, fun h a stored held => ?_⟩
    · obtain ⟨final, resolved⟩ := legible_iff.mp legible
      have bridged : Bridged s handles (fun k => (s'.get? k).isSome) a.literal := .of_held (fun k b found => by
        obtain ⟨_, found', _⟩ := settled.kept sound' found
        simp [found']) resolved
      exact ⟨fun _ => settled.keepsTexts sound' h a stored legible, fun not => absurd bridged not⟩
    · obtain ⟨b, found⟩ := Option.isSome_iff_exists.mp held
      exact absurd (mem_ids_of_get? stored) ((List.nodup_append'.mp distinct).2.2 (mem_ids_of_get? found))

private theorem Sound.get?_of_empty (sound : s.Sound) (distinct : s.ids.Nodup) (empty : s.view = []) (h : Handle) :
    s.get? h = none := by
  refine Option.eq_none_iff_forall_ne_some.mpr fun a stored => ?_
  obtain ⟨piece, member, _⟩ := (sound.get?_view distinct).mp stored
  simp [empty] at member

private theorem Sound.moveAll_passage {t s t' s' : TokenStream} {before : Option Handle} (sound : t.Sound)
    (sound' : s.Sound)
    (distinct : (t.ids ++ s.ids).Nodup) (done : t.moveAll before s = (.ok (names, t'), s')) :
    (t' = t ∧ ∀ h, (s.adoptNewlines t).get? h = none) ∨ ∃ first last ahead behind middle moved,
      Passage t (s.adoptNewlines t) before first last names t' s' ahead behind [] middle [] moved := by
  obtain ⟨adopted, ids, id, view⟩ := sound'.adoptNewlines t
  have distinct' := (List.nodup_append'.mp distinct).2.1
  unfold TokenStream.moveAll at done
  simp only [adopted.ends.1, adopted.ends.2] at done
  cases whole : (s.adoptNewlines t).view with
  | nil =>
    simp only [whole, List.head?_nil, Option.map_none, Prod.mk.injEq, Except.ok.injEq] at done
    exact .inl ⟨done.1.2.symm, adopted.get?_of_empty (ids ▸ distinct') whole⟩
  | cons piece rest =>
    obtain ⟨final, ends⟩ : ∃ final, (piece :: rest).getLast? = some final :=
      ⟨_, List.getLast?_eq_getLast_of_ne_nil (List.cons_ne_nil piece rest)⟩
    simp only [whole, List.head?_cons, Option.map_some, ends] at done
    have own : piece.1.chain = (s.adoptNewlines t).chain.id := adopted.chain_of_view (by simp [whole])
    obtain ⟨ahead, behind, front, middle, back, moved, ranged, passage⟩ :=
      sound.passage adopted (ids ▸ distinct) own done
    -- The range from the first to the last piece is the whole stream.
    have all : Spans piece.1 final.1 (piece :: rest) := ⟨rfl, by rw [ends]; rfl⟩
    have same := Except.ok.inj (ranged.symm.trans
      (adopted.rangeHandles_ok (show _ = [] ++ ((piece :: rest) ++ []) by simp [whole]) all))
    have lengths := congrArg List.length (handles_of_stays passage.freed.settled.stays)
    have lengths' := congrArg List.length same
    simp only [passage.split, whole, List.length_map, List.length_append] at lengths lengths'
    obtain rfl : front = [] := List.eq_nil_of_length_eq_zero (by omega)
    obtain rfl : back = [] := List.eq_nil_of_length_eq_zero (by omega)
    exact .inr ⟨_, _, ahead, behind, middle, moved, passage⟩

/-- What comes from a source in a move of everything has the text that it had there once the line breaks were
written as those of the target, under the handle that it has afterwards. -/
def Arrive (t s : TokenStream) (names : Renaming) (root : TokenStream) : Prop :=
  ∀ h a, (s.adoptNewlines t).get? h = some a → (s.adoptNewlines t).Legible a → root.text (names.apply h) =
    (s.adoptNewlines t).text h

private theorem Sound.moveAll_passed {t s t' s' : TokenStream} {before : Option Handle} (sound : t.Sound)
    (sound' : s.Sound) (distinct : (t.ids ++ s.ids).Nodup)
    (done : t.moveAll before s = (.ok (names, t'), s')) : KeepsTexts t t' ∧ Arrive t s names t' := by
  rcases sound.moveAll_passage sound' distinct done with ⟨rfl, empty⟩ | ⟨_, _, _, _, _, _, passage⟩
  · exact ⟨fun _ _ _ _ => rfl, fun h a stored => by cases (empty h).symm.trans stored⟩
  · refine ⟨passage.grows.keepsTexts, fun h a stored legible => ?_⟩
    exact (passage.lands_whole ⟨rfl, rfl⟩).text passage.freed.settled passage.sound' (by simp [stored]) stored legible

/-! ### Exchanges -/

private theorem Passage.landed {s t t' s' : TokenStream} {before : Option Handle}
    {ahead behind middle moved : List Piece}
    (passage : Passage t s before first last names t' s' ahead behind [] middle [] moved) (held : (s.get? h).isSome) :
    ∃ piece ∈ moved.map names.redirectPiece, piece.1 = names.apply h ∨
      (names.apply h).chain ≠ t.chain.id ∧ ∃ sub, piece.2.2 = some sub ∧ (sub.get? (names.apply h)).isSome := by
  obtain ⟨a, stored⟩ := Option.isSome_iff_exists.mp held
  obtain ⟨b, now, _⟩ := passage.freed.settled.kept passage.sound' stored
  obtain ⟨piece, member, here⟩ := (passage.calm_sound.get?_view passage.calm_distinct).mp now
  rw [passage.split, List.nil_append, List.append_nil] at member
  obtain ⟨arrived, listed, place, content⟩ := passage.matched member
  refine ⟨_, List.mem_map_of_mem listed, ?_⟩
  rcases here with ⟨rfl, _⟩ | ⟨below, sub, owned, found⟩
  · exact .inl place
  · have outside : h ∉ middle.map (·.1) := fun inside => by
      obtain ⟨other, among, rfl⟩ := List.mem_map.mp inside
      exact below (passage.calm_sound.chain_of_view (by simp [passage.split, among]))
    have foreign := passage.apart (mem_ids_of_get? stored)
    rw [passage.apply_other outside]
    exact .inr ⟨fun top => foreign (top ▸ t.id_mem_ids), sub, (congrArg (·.2) content).trans owned, by simp [found]⟩

private theorem Sound.erase_ahead (sound : s.Sound) (distinct : s.ids.Nodup) {ahead behind : List Piece}
    (split : s.view = ahead ++ behind) (begins : behind.head?.map (·.1) = some first)
    (done : s.erase first last = .ok after) {piece : Piece} (member : piece ∈ ahead) (here : piece.1 = h ∨
    h.chain ≠ s.chain.id ∧ ∃ sub, piece.2.2 = some sub ∧ (sub.get? h).isSome) : (after.get? h).isSome := by
  obtain ⟨start, more, rfl, rfl⟩ : ∃ start more, behind = start :: more ∧ start.1 = first := by
    cases behind with
    | nil => cases begins
    | cons start more => exact ⟨start, more, rfl, by simpa using begins⟩
  have own : start.1.chain = s.chain.id := sound.chain_of_view (by simp [split])
  obtain ⟨after_sound, id, _, front, middle, back, split', spans, stays⟩ := sound.erase distinct own done
  have distinct' := sound.erase_distinct distinct done
  obtain ⟨start', rest, rfl, named⟩ := spans.first
  have nodup := sound.handles_nodup
  rw [split'] at nodup
  obtain ⟨rfl, _, _⟩ := split_unique nodup (split'.symm.trans split) named
  obtain ⟨kept, listed, place, _, below⟩ := mem_of_forall₂ stays.flip (List.mem_append_left back member)
  rcases here with rfl | ⟨deep, sub, owned, held⟩
  · exact Option.isSome_of_eq_some ((after_sound.get?_view distinct').mpr ⟨kept, listed, .inl ⟨place, rfl⟩⟩)
  · rw [owned] at below
    cases sub' : kept.2.2 with
    | none => simp [sub'] at below
    | some other =>
      rw [sub'] at below
      obtain ⟨a, stored⟩ := Option.isSome_iff_exists.mp held
      have sound_sub : sub.Sound := by
        obtain ⟨entry, _, rfl⟩ := List.mem_map.mp (show piece ∈ s.view by simp [split, member])
        exact sound.sub owned
      have sound_other : other.Sound := by
        obtain ⟨entry, _, rfl⟩ := List.mem_map.mp listed
        exact after_sound.sub sub'
      have pair := (Option.rel_some_some.mp below).get? sound_sub sound_other h
      rw [stored] at pair
      cases found : other.get? h with
      | none => simp [found] at pair
      | some b =>
        exact Option.isSome_of_eq_some
          ((after_sound.get?_view distinct').mpr ⟨kept, listed, .inr ⟨id ▸ deep, other, sub', found⟩⟩)

private theorem Sound.exchange_passed {t s t' s' : TokenStream} (sound : t.Sound) (sound' : s.Sound)
    (distinct : (t.ids ++ s.ids).Nodup) (done : t.exchange first last s = (.ok (names, t'), s')) :
    ∃ handles, t.rangeHandles first last = .ok handles ∧ Retold t handles t' ∧ Arrive t s names t' := by
  have distinct' := (List.nodup_append'.mp distinct).2.1
  obtain ⟨joined, left, moved, erased⟩ := exchange_steps (congrArg Prod.fst done)
  obtain ⟨after, _, _, _, total, _⟩ := sound.moveAll sound' distinct' moved
  have once : joined.ids.Nodup := List.nodup_iff_count_le_one.mpr fun id => by
    have single := List.nodup_iff_count_le_one.mp distinct id
    rw [List.count_append] at single
    have both := total id
    omega
  obtain ⟨handles, ranged, retold⟩ := after.erase_retold once erased
  obtain ⟨handles', ranged'⟩ : ∃ handles, t.rangeHandles first last = .ok handles := by
    unfold TokenStream.exchange at done
    cases found : t.rangeHandles first last with
    | error e => simp [found] at done
    | ok handles => exact ⟨handles, rfl⟩
  obtain rfl : handles' = handles :=
    Except.ok.inj ((sound.rangeHandles_joined sound' distinct' ranged' moved).symm.trans ranged)
  rcases sound.moveAll_passage sound' distinct moved with ⟨rfl, empty⟩ | ⟨_, _, ahead, behind, middle, new, passage⟩
  · exact ⟨handles', ranged', retold, fun h a stored => by cases (empty h).symm.trans stored⟩
  · refine ⟨handles', ranged', fun h a stored there legible => ?_, fun h a stored legible => ?_⟩
    · obtain ⟨final, resolved⟩ := legible_iff.mp legible
      have legible' : joined.Legible a := legible_iff.mpr ⟨final, passage.grows.resolveFrom resolved⟩
      have told := retold h a (passage.grows h a stored) there legible'
      rwa [Bridged.grows passage.grows resolved, passage.grows.keepsTexts h a stored legible] at told
    · obtain ⟨final, resolved⟩ := legible_iff.mp legible
      obtain ⟨c, found, _, read, bridged⟩ :=
        (passage.lands_whole ⟨rfl, rfl⟩).reads passage.freed.settled passage.sound' (Nat.le_refl 9)
        (by simp [stored]) stored resolved
      have survives (k : Handle) (held : ((s.adoptNewlines t).get? k).isSome) : (t'.get? (names.apply k)).isSome := by
        obtain ⟨piece, member, here⟩ := passage.landed held
        refine after.erase_ahead once (show joined.view = (ahead ++ new.map names.redirectPiece) ++
          behind by simp [passage.now]) passage.place erased
          (List.mem_append_right _ member) ?_
        rwa [passage.id]
      have told := (retold _ c found (survives h (by simp [stored])) (legible_iff.mpr ⟨final, read⟩)).1
        (bridged.mono (by rintro _ ⟨k, _, held, rfl⟩; exact survives k held) (List.nil_subset _))
      rw [told]
      exact (passage.lands_whole ⟨rfl, rfl⟩).text passage.freed.settled passage.sound' (by simp [stored]) stored legible

namespace Group

/-- Texts of tokens around the operations of any two streams that ever exist together, neither of which holds
the other. Every token that is legible, which it is if the way along its aliases leads to a literal, keeps its
text when others are erased, moved or exchanged, unless that way leads to a token that goes along without
being in the range; then it has none. -/
theorem texts_kept (requests : List Request) {target source : ChainId} {t s : TokenStream}
    (targeted : (({} : Group).serveAll requests).stream? target = some t)
    (sourced : (({} : Group).serveAll requests).stream? source = some s)
    (apart : (({} : Group).serveAll requests).rootOf target ≠ (({} : Group).serveAll requests).rootOf source) :
    (∀ first last after, s.erase first last = .ok after → ∃ handles, s.rangeHandles first last = .ok handles ∧
    Retold s handles after) ∧
    (∀ before first last names t' s', t.moveRange before s first last = (.ok (names, t'), s') →
      ∃ handles, s.rangeHandles first last = .ok handles ∧ Passed t s handles names t' s') ∧
    (∀ before names t' s', t.moveAll before s = (.ok (names, t'), s') → KeepsTexts t t' ∧ Arrive t s names t') ∧
    ∀ first last names t' s', t.exchange first last s = (.ok (names, t'), s') →
      ∃ handles, t.rangeHandles first last = .ok handles ∧ Retold t handles t' ∧ Arrive t s names t' := by
  have sound := sound_none.serveAll requests
  obtain ⟨soundT, _⟩ := sound.stream? targeted
  obtain ⟨soundS, distinct⟩ := sound.stream? sourced
  obtain ⟨root, outer, held⟩ := stream?_eq targeted
  obtain ⟨root', outer', held'⟩ := stream?_eq sourced
  have pair := distinct_owners (sound.distinct_pair apart outer outer') held held'
  exact ⟨fun _ _ _ => soundS.erase_retold distinct, fun _ _ _ _ _ _ => soundT.moveRange_passed soundS pair,
    fun _ _ _ _ => soundT.moveAll_passed soundS pair, fun _ _ _ _ _ => soundT.exchange_passed soundS pair⟩

/-- A token stands for one in a stream that another token owns. If that one is erased it has its text still,
if the owner is, it has none. -/
theorem texts_kept_or_lost :
    let directive : Token := { kind := .kwInclude, literal := .ofText "include" }
    let letter : Token := { kind := .identifier, literal := .ofText "x" }
    let owner : Handle := ⟨0, 0, 0⟩
    let x : Handle := ⟨1, 0, 0⟩
    let other : Handle := ⟨0, 1, 0⟩
    let g := ({} : Group).serveAll [.create, .push 0 directive, .create, .push 1 letter, .attach 0 owner 1,
      .push 0 { kind := .identifier, literal := .ofAlias x }, .create]
    ∃ t s after after', g.stream? 2 = some t ∧ g.stream? 0 = some s ∧ s.text other = "x" ∧
      s.erase x x = .ok after ∧ after.text other = "x" ∧ s.erase owner owner = .ok after' ∧ after'.text other = "" := by
  intro directive letter owner x other g
  let t := (g.stream? 2).get (by decide +kernel)
  let s := (g.stream? 0).get (by decide +kernel)
  have targeted : g.stream? 2 = some t := (Option.some_get _).symm
  have sourced : g.stream? 0 = some s := (Option.some_get _).symm
  obtain ⟨erased, _⟩ := texts_kept _ targeted sourced (by decide +kernel)
  obtain ⟨a, stored⟩ := Option.isSome_iff_exists.mp (show (s.get? other).isSome by decide +kernel)
  obtain ⟨b, below⟩ := Option.isSome_iff_exists.mp (show (s.get? x).isSome by decide +kernel)
  have points : a.literal.aliasTarget? = some x := by
    have known : (s.get? other).map (·.literal.aliasTarget?) = some (some x) := by decide +kernel
    simpa [stored] using known
  have word : a.kind = .identifier := by
    have known : (s.get? other).map (·.kind) = some .identifier := by decide +kernel
    simpa [stored] using known
  have legible : s.Legible a := fun target aimed => by
    obtain rfl := Option.some.inj (points.symm.trans aimed)
    decide +kernel
  have one : (s.erase x x).toOption.isSome := by decide +kernel
  have two : (s.erase owner owner).toOption.isSome := by decide +kernel
  have held : ((s.erase x x).toOption.bind (·.get? other)).isSome := by decide +kernel
  have held' : ((s.erase owner owner).toOption.bind (·.get? other)).isSome := by decide +kernel
  have gone : ((s.erase owner owner).toOption.bind (·.get? x)).isNone := by decide +kernel
  cases done : s.erase x x with
  | error e => simp [done, Except.toOption] at one
  | ok after =>
    cases done' : s.erase owner owner with
    | error e => simp [done', Except.toOption] at two
    | ok after' =>
      simp only [done, done', Except.toOption, Option.bind_some] at held held' gone
      obtain ⟨handles, ranged, told⟩ := erased x x after done
      obtain ⟨handles', ranged', told'⟩ := erased owner owner after' done'
      obtain rfl : [x] = handles :=
        Except.ok.inj ((show s.rangeHandles x x = .ok [x] by decide +kernel).symm.trans ranged)
      obtain rfl : [owner] = handles' :=
        Except.ok.inj ((show s.rangeHandles owner owner = .ok [owner] by decide +kernel).symm.trans ranged')
      have text : s.text other = "x" := by decide +kernel
      refine ⟨t, s, after, after', targeted, sourced, text, done, ?_, done', ?_⟩
      · exact ((told other a stored held legible).1 (.copy points (by simp))).trans text
      · refine ((told' other a stored held' legible).2 fun bridged => ?_).trans (by rw [word]; rfl)
        -- The way leads through a token that went with its owner.
        have kept := (bridged.onward points (by decide) below).1
        rw [Option.isNone_iff_eq_none.mp gone] at kept
        cases kept

end Group

end YaraRules.TokenStream

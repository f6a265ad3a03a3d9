import YaraRules.Proofs.ReadingOrder

/-! The code of a stream: its tokens in reading order, without the line breaks and
without the directives that own a stream. Rules and imports are rows of such tokens.
Every change of tokens that an edit makes is a rewriting of one part of the code,
which leaves alone whatever stands before and behind that part. -/

namespace YaraRules.TokenStream

def codeOf (spots : List Spot) : List Handle :=
  (spots.filter fun spot => spot.2.1 != .newLine && !spot.2.2).map (·.1)

/-- Tokens that are neither line breaks nor directives, in reading order. -/
def code (s : TokenStream) : List Handle := codeOf s.spots

@[simp] theorem codeOf_nil : codeOf [] = [] := rfl

@[simp] theorem codeOf_append (front back : List Spot) : codeOf (front ++ back) = codeOf front ++ codeOf back := by
  simp [codeOf]

theorem codeOf_cons (spot : Spot) (rest : List Spot) : codeOf (spot :: rest) = codeOf [spot] ++ codeOf rest :=
  codeOf_append [spot] rest

theorem codeOf_one {h : Handle} {kind : TokenKind} (word : kind ≠ .newLine) : codeOf [(h, kind, false)] = [h] := by
  simp [codeOf, word]

theorem codeOf_break (h : Handle) (owned : Bool) : codeOf [(h, .newLine, owned)] = [] := rfl

theorem codeOf_sublist (spots : List Spot) : (codeOf spots).Sublist (spots.map (·.1)) :=
  List.filter_sublist.map _

theorem mem_codeOf {spots : List Spot} {h : Handle} :
    h ∈ codeOf spots ↔ ∃ kind, kind ≠ .newLine ∧ (h, kind, false) ∈ spots := by
  simp only [codeOf, List.mem_map, List.mem_filter, Prod.exists, Bool.and_eq_true, bne_iff_ne,
    Bool.not_eq_eq_eq_not, Bool.not_true]
  constructor
  · rintro ⟨h', kind, owned, ⟨member, word, rfl⟩, rfl⟩
    exact ⟨kind, word, member⟩
  · rintro ⟨kind, word, member⟩
    exact ⟨h, kind, false, ⟨member, word, rfl⟩, rfl⟩

/-- Sound, with distinct identities, and no line break owns a stream. -/
structure Tidy (s : TokenStream) : Prop where
  sound : s.Sound
  distinct : s.ids.Nodup
  bare : ∀ spot ∈ s.spots, spot.2.1 = .newLine → spot.2.2 = false

theorem pair_sublist {α : Type} {x y : α} {front back : List α} (early : x ∈ front) (late : y ∈ back) :
    [x, y].Sublist (front ++ back) :=
  (List.singleton_sublist.mpr early).append (List.singleton_sublist.mpr late)

/-- What stands before and behind an item that occurs once. -/
theorem sublist_around {α : Type} {x : α} {front back front' back' : List α} (once : (front' ++ x :: back').Nodup)
    (listed : (front ++ x :: back).Sublist (front' ++ x :: back')) : front.Sublist front' ∧ back.Sublist back' := by
  induction front' generalizing front with
  | nil =>
    cases front with
    | nil => exact ⟨.slnil, List.cons_sublist_cons.mp listed⟩
    | cons y rest =>
      have repeated : x ∈ back' := listed.tail.subset (by simp)
      exact absurd repeated (List.nodup_cons.mp once).1
  | cons z rest' ih =>
    obtain ⟨absent, others⟩ := List.nodup_cons.mp once
    generalize split : front ++ x :: back = whole at listed
    cases listed with
    | cons _ later =>
      obtain ⟨ahead, behind⟩ := ih others (split ▸ later)
      exact ⟨ahead.cons z, behind⟩
    | cons_cons _ later =>
      cases front with
      | nil =>
        obtain ⟨rfl, _⟩ := List.cons.inj split
        exact absurd (by simp) absent
      | cons y rest =>
        obtain ⟨rfl, rfl⟩ := List.cons.inj split
        obtain ⟨ahead, behind⟩ := ih others later
        exact ⟨ahead.cons_cons y, behind⟩

namespace Tidy

variable {s after : TokenStream}

theorem nodup (tidy : s.Tidy) : (s.spots.map (·.1)).Nodup := tidy.sound.spots_nodup tidy.distinct

theorem code_nodup (tidy : s.Tidy) : s.code.Nodup := (codeOf_sublist _).nodup tidy.nodup

/-- A token of the code in its place among all tokens. -/
theorem around (tidy : s.Tidy) {ahead behind : List Spot} {spot : Spot} (split : s.spots = ahead ++ spot :: behind)
    {front back : List Handle} (listed : (front ++ spot.1 :: back).Sublist s.code) :
    codeOf [spot] = [spot.1] ∧ spot.2.2 = false ∧ front.Sublist (codeOf ahead) ∧ back.Sublist (codeOf behind) := by
  obtain ⟨h, kind, owned⟩ := spot
  have inside : h ∈ s.code := listed.subset (by simp)
  obtain ⟨kind', word, member⟩ := mem_codeOf.mp inside
  obtain ⟨rfl, rfl⟩ : kind = kind' ∧ owned = false := by
    have same := List.inj_on_of_nodup_map tidy.nodup (show (h, kind, owned) ∈ s.spots by simp [split]) member rfl
    simpa using same
  have one := codeOf_one (h := h) word
  have parts : s.code = codeOf ahead ++ h :: codeOf behind := by
    rw [code, split, codeOf_append, codeOf_cons, one]
    rfl
  have once := tidy.code_nodup
  rw [parts] at once listed
  exact ⟨one, rfl, sublist_around once listed⟩

theorem of_spots (sound : after.Sound) (distinct : after.ids.Nodup) (tidy : s.Tidy) {ahead new behind : List Spot}
    (split : s.spots = ahead ++ behind) (view : after.spots = ahead ++ (new ++ behind))
    (free : ∀ spot ∈ new, spot.2.2 = false) : after.Tidy := by
  refine ⟨sound, distinct, fun spot member broken => ?_⟩
  rw [view, List.mem_append, List.mem_append] at member
  rcases member with early | here | late
  · exact tidy.bare spot (by simp [split, early]) broken
  · exact free spot here
  · exact tidy.bare spot (by simp [split, late]) broken

end Tidy

/-- A part of the code of a stream was rewritten: whatever stands around it stands
around what came in its place, which is in the same stream. -/
structure Rewrites (s after : TokenStream) (old new : List Handle) : Prop where
  tidy : after.Tidy
  code : ∀ front back, (front ++ (old ++ back)).Sublist s.code → (front ++ (new ++ back)).Sublist after.code
  chain : ∀ id, (∀ h ∈ old, h.chain = id) → ∀ h ∈ new, h.chain = id

namespace Rewrites

variable {s middle after : TokenStream} {old new last : List Handle}

theorem refl (tidy : s.Tidy) (row : List Handle) : Rewrites s s row row :=
  ⟨tidy, fun _ _ listed => listed, fun _ same => same⟩

theorem trans (first : Rewrites s middle old new) (second : Rewrites middle after new last) :
    Rewrites s after old last :=
  ⟨second.tidy, fun front back listed => second.code front back (first.code front back listed),
    fun id same => second.chain id (first.chain id same)⟩

/-- More of the code around the part is part of the row. -/
theorem frame (rewrites : Rewrites s after old new) (ahead behind : List Handle) :
    Rewrites s after (ahead ++ (old ++ behind)) (ahead ++ (new ++ behind)) := by
  refine ⟨rewrites.tidy, fun front back listed => ?_, fun id same h member => ?_⟩
  · have moved := rewrites.code (front ++ ahead) (behind ++ back) (by simpa using listed)
    simpa using moved
  · simp only [List.mem_append] at same member
    rcases member with early | here | late
    · exact same h (.inl early)
    · exact rewrites.chain id (fun k inside => same k (.inr (.inl inside))) h here
    · exact same h (.inr (.inr late))

theorem left (rewrites : Rewrites s after old new) (ahead : List Handle) :
    Rewrites s after (ahead ++ old) (ahead ++ new) := by
  simpa using rewrites.frame ahead []

theorem right (rewrites : Rewrites s after old new) (behind : List Handle) :
    Rewrites s after (old ++ behind) (new ++ behind) :=
  rewrites.frame [] behind

theorem shrink (rewrites : Rewrites s after old new) (fewer : last.Sublist new) : Rewrites s after old last := by
  refine ⟨rewrites.tidy, fun front back listed => ?_, fun id same h member => ?_⟩
  · exact (List.Sublist.append_left (fewer.append_right back) front).trans (rewrites.code front back listed)
  · exact rewrites.chain id same h (fewer.subset member)

end Rewrites

/-- A piece is followed by the one behind it and stored under its handle. -/
theorem Sound.beside {s owner : TokenStream} (sound : s.Sound) {front back : List Piece} {piece : Piece}
    (held : s.owner? piece.1.chain = some owner) (view : owner.view = front ++ piece :: back) :
    s.next? piece.1 = back.head?.map (·.1) ∧ s.get? piece.1 = some piece.2.1 := by
  obtain ⟨ahead, rest, entries, _, tail⟩ := List.map_eq_append_iff.mp view
  obtain ⟨entry, behind, rfl, rfl, rfl⟩ := List.map_eq_cons_iff.mp tail
  constructor
  · rw [TokenStream.next?, held]
    refine ((sound.owner? held).chain.neighbours entries).2.trans ?_
    rw [List.head?_map, Option.map_map]
    rfl
  · exact (sound.get?_eq_some _ _).mpr ⟨owner, held, by simp [← entries_eq, entries, piece]⟩

/-! ### Insertions -/

namespace Tidy

variable {s after : TokenStream}

/-- A token is put between two parts of the stream that holds its neighbour. -/
private theorem inserted (tidy : s.Tidy) {id : ChainId} {owner owner' : TokenStream} (held : s.owner? id = some owner)
    (sound : owner'.Sound) (ids : owner'.ids = owner.ids) {front back : List Piece} {new : Handle} {token : Token}
    (split : owner.view = front ++ back) (view : owner'.view = front ++ (new, token, none) :: back) :
    (s.modifyOwner id fun _ => owner').Tidy ∧ new.chain = id ∧ ∃ ahead behind,
      s.spots = ahead ++ (front.flatMap spotsAt ++ (back.flatMap spotsAt ++ behind)) ∧
      (s.modifyOwner id fun _ => owner').spots =
        ahead ++ (front.flatMap spotsAt ++ (new, token.kind, false) :: (back.flatMap spotsAt ++ behind)) := by
  obtain ⟨ahead, behind, parts, changed⟩ := spots_modifyOwner tidy.sound held
  have before : s.spots = (ahead ++ front.flatMap spotsAt) ++ (back.flatMap spotsAt ++ behind) := by
    simp [parts, spots_eq owner, split]
  have now : (s.modifyOwner id fun _ => owner').spots =
      (ahead ++ front.flatMap spotsAt) ++ ([(new, token.kind, false)] ++ (back.flatMap spotsAt ++ behind)) := by
    simp [changed, spots_eq owner', view, spotsAt]
  have chain : owner'.chain.id = owner.chain.id := by
    cases owner
    cases owner'
    exact (List.cons.inj ids).1
  refine ⟨of_spots ?_ ?_ tidy before now (by simp), ?_, ahead, behind, by simp [before], by simp [now]⟩
  · exact tidy.sound.modifyOwner fun _ _ => sound
  · exact ids_modifyOwner held (f := fun _ => owner') ids ▸ tidy.distinct
  · have own : new.chain = owner'.chain.id := sound.chain_of_view (show (new, token, none) ∈ owner'.view by simp [view])
    exact own.trans (chain.trans (id_of_owner? held))

theorem insertBefore_spots (tidy : s.Tidy) {before new : Handle} {token : Token}
    (done : s.insertBefore before token = .ok (new, after)) :
    after.Tidy ∧ new.chain = before.chain ∧ ∃ ahead spot behind, s.spots = ahead ++ spot :: behind ∧
      spot.1 = before ∧ after.spots = ahead ++ (new, token.kind, false) :: spot :: behind := by
  obtain ⟨_, _, owner, owner', front, piece, back, held, rfl, ids, sound, split, rfl, view⟩ :=
    tidy.sound.insertBefore_deep done
  obtain ⟨tidy', chain, ahead, behind, old, now⟩ := tidy.inserted held sound ids split view
  refine ⟨tidy', chain, ahead ++ front.flatMap spotsAt, (piece.1, piece.2.1.kind, piece.2.2.isSome),
    (piece.2.2.map spots).getD [] ++ (back.flatMap spotsAt ++ behind), ?_, rfl, ?_⟩
  · simp [old, spotsAt]
  · simp [now, spotsAt]

/-- A token that owns no stream is followed by the new one. -/
theorem insertAfter_spots (tidy : s.Tidy) {before new : Handle} {token : Token}
    (done : s.insertAfter before token = .ok (new, after)) :
    after.Tidy ∧ new.chain = before.chain ∧ ∃ ahead spot behind, s.spots = ahead ++ spot :: behind ∧
      spot.1 = before ∧ (spot.2.2 = false → after.spots = ahead ++ spot :: (new, token.kind, false) :: behind) := by
  obtain ⟨_, _, owner, owner', front, piece, back, held, rfl, ids, sound, split, rfl, view⟩ :=
    tidy.sound.insertAfter_deep done
  have split' : owner.view = (front ++ [piece]) ++ back := by simp [split]
  have view' : owner'.view = (front ++ [piece]) ++ (new, token, none) :: back := by simp [view]
  obtain ⟨tidy', chain, ahead, behind, old, now⟩ := tidy.inserted held sound ids split' view'
  refine ⟨tidy', chain, ahead ++ front.flatMap spotsAt, (piece.1, piece.2.1.kind, piece.2.2.isSome),
    (piece.2.2.map spots).getD [] ++ (back.flatMap spotsAt ++ behind), ?_, rfl, fun free => ?_⟩
  · simp [old, spotsAt]
  · have nothing : piece.2.2 = none := by simpa using free
    simp [now, spotsAt, nothing]

theorem insertBefore (tidy : s.Tidy) {before new : Handle} {token : Token} (word : token.kind ≠ .newLine)
    (done : s.insertBefore before token = .ok (new, after)) : Rewrites s after [before] [new, before] := by
  obtain ⟨tidy', chain, ahead, spot, behind, split, rfl, view⟩ := tidy.insertBefore_spots done
  refine ⟨tidy', fun front back listed => ?_, fun id same => by simp [chain, same spot.1 (by simp)]⟩
  obtain ⟨one, _, left, right⟩ := tidy.around split (by simpa using listed)
  rw [code, view, codeOf_append, codeOf_cons, codeOf_cons spot, codeOf_one word, one]
  exact left.append (by simpa using right)

theorem insertAfter (tidy : s.Tidy) {before new : Handle} {token : Token} (word : token.kind ≠ .newLine)
    (done : s.insertAfter before token = .ok (new, after)) : Rewrites s after [before] [before, new] := by
  obtain ⟨tidy', chain, ahead, spot, behind, split, rfl, view⟩ := tidy.insertAfter_spots done
  refine ⟨tidy', fun front back listed => ?_, fun id same => by simp [chain, same spot.1 (by simp)]⟩
  obtain ⟨one, free, left, right⟩ := tidy.around split (by simpa using listed)
  rw [code, view free, codeOf_append, codeOf_cons, codeOf_cons (new, _), codeOf_one word, one]
  exact left.append (by simpa using right)

theorem push (tidy : s.Tidy) (token : Token) :
    (s.push token).2.Tidy ∧ (s.push token).1.chain = s.chain.id ∧
      (s.push token).2.spots = s.spots ++ [((s.push token).1, token.kind, false)] := by
  obtain ⟨sound, view, id, ids⟩ := tidy.sound.push token
  have spots : (s.push token).2.spots = s.spots ++ ([((s.push token).1, token.kind, false)] ++ []) := by
    rw [spots_eq, view, spots_eq]
    simp [spotsAt]
  refine ⟨of_spots sound (ids ▸ tidy.distinct) tidy (by simp) spots (by simp), ?_, spots⟩
  have listed : ((s.push token).1, token, none) ∈ (s.push token).2.view := by simp [view]
  exact (sound.chain_of_view listed).trans id

/-! ### Removals -/

/-- A range with all that its tokens own is removed. -/
theorem erase_spots (tidy : s.Tidy) {first last : Handle} (done : s.erase first last = .ok after) :
    after.Tidy ∧ after.chain.id = s.chain.id ∧ after.ids ⊆ s.ids ∧ ∃ ahead middle behind,
      s.spots = ahead ++ (middle ++ behind) ∧ after.spots = ahead ++ behind ∧ middle.head?.map (·.1) = some first ∧
      ((∀ spot ∈ s.spots, spot.1 = last → spot.2.2 = false) → middle.getLast?.map (·.1) = some last) := by
  obtain ⟨sound, counted, _⟩ := tidy.sound.erase_deep tidy.distinct done
  obtain ⟨owner, settled, kept, handles, held, found, _, calm, held', alike, rfl⟩ :=
    tidy.sound.erase_owner tidy.distinct done
  obtain ⟨front, middle, back, split, rfl, spans⟩ :=
    (tidy.sound.owner? held).rangeHandles (id_of_owner? held).symm found
  have stays := alike.stays
  rw [split] at stays
  obtain ⟨front', rest, split', left, others⟩ := forall₂_parts stays
  obtain ⟨middle', back', rfl, gone, right⟩ := forall₂_parts others
  have dropped := (calm.sound.owner? held').dropAll split'
  rw [handles_of_stays gone] at dropped
  obtain ⟨_, view, own, _⟩ := dropped
  obtain ⟨ahead, behind, parts, changed⟩ := spots_modifyOwner calm.sound held'
  have old : s.spots = (ahead ++ front.flatMap spotsAt) ++
      (middle.flatMap spotsAt ++ (back.flatMap spotsAt ++ behind)) := by
    rw [← calm.alike.spots_kept, parts, spots_eq kept, split', ← spotsAt_stays left, ← spotsAt_stays gone,
      ← spotsAt_stays right]
    simp
  have now : (settled.modifyOwner first.chain fun _ => kept.dropAll (middle.map (·.1))).spots =
      (ahead ++ front.flatMap spotsAt) ++ (back.flatMap spotsAt ++ behind) := by
    rw [changed, spots_eq (kept.dropAll _), view, ← spotsAt_stays left, ← spotsAt_stays right]
    simp
  refine ⟨⟨sound, ?_, fun spot member => tidy.bare spot ?_⟩, ?_, fun id member =>
    ?_, _, _, _, old, now, ?_, fun free => ?_⟩
  · refine List.nodup_iff_count_le_one.mpr fun id => Nat.le_trans (counted id) ?_
    exact List.nodup_iff_count_le_one.mp tidy.distinct id
  · rw [now] at member
    rw [old]
    simp only [List.mem_append] at member ⊢
    tauto
  · refine (id_modifyOwner fun other found => ?_).trans calm.alike.id_eq
    obtain rfl : kept = other := Option.some.inj (held'.symm.trans found)
    exact own
  · exact List.count_pos_iff.mp (Nat.lt_of_lt_of_le (List.count_pos_iff.mpr member) (counted id))
  · obtain ⟨piece, more, rfl, rfl⟩ := spans.first
    rfl
  · obtain ⟨more, piece, rfl, rfl⟩ := spans.last
    have nothing : piece.2.2 = none := by
      have unowned := free (piece.1, piece.2.1.kind, piece.2.2.isSome) (by simp [old, spotsAt]) rfl
      simpa using unowned
    simp [spotsAt, nothing]

/-- A token in the stream that holds it and in reading order. -/
theorem located (tidy : s.Tidy) {ahead behind : List Spot} {spot : Spot} (split : s.spots = ahead ++ spot :: behind) :
    ∃ owner front piece back ahead' behind', s.owner? spot.1.chain = some owner ∧ owner.view = front ++ piece :: back ∧
      spot = (piece.1, piece.2.1.kind, piece.2.2.isSome) ∧ ahead = ahead' ++ front.flatMap spotsAt ∧
      behind = (piece.2.2.map spots).getD [] ++ (back.flatMap spotsAt ++ behind') := by
  obtain ⟨owner, held, stored⟩ := tidy.sound.owner?_of_spots tidy.distinct (h := spot.1) (by simp [split])
  obtain ⟨entry, inside, named⟩ := List.mem_map.mp stored
  obtain ⟨front, back, view⟩ := List.append_of_mem (List.mem_map_of_mem (f := owner.piece) inside)
  obtain ⟨ahead', behind', parts, _⟩ := spots_modifyOwner tidy.sound held
  have whole : ahead ++ spot :: behind = (ahead' ++ front.flatMap spotsAt) ++
      ((owner.piece entry).1, (owner.piece entry).2.1.kind, (owner.piece entry).2.2.isSome) ::
        (((owner.piece entry).2.2.map spots).getD [] ++ (back.flatMap spotsAt ++ behind')) := by
    rw [← split, parts, spots_eq owner, TokenStream.view, view]
    simp [spotsAt]
  obtain ⟨front_eq, spot_eq, back_eq⟩ := split_unique (split ▸ tidy.nodup) whole named.symm
  exact ⟨owner, front, owner.piece entry, back, ahead', behind', held, view, spot_eq, front_eq, back_eq⟩

/-- A token of the code can be looked up, and is no line break. -/
theorem get?_of_code (tidy : s.Tidy) {h : Handle} (member : h ∈ s.code) :
    ∃ a, s.get? h = some a ∧ a.kind ≠ .newLine := by
  obtain ⟨kind, word, listed⟩ := mem_codeOf.mp member
  obtain ⟨ahead, behind, split⟩ := List.append_of_mem listed
  obtain ⟨owner, front, piece, back, _, _, held, view, same, _⟩ := tidy.located split
  obtain ⟨rfl, rfl, _⟩ : h = piece.1 ∧ kind = piece.2.1.kind ∧ _ := by simpa using same
  exact ⟨piece.2.1, (tidy.sound.beside held view).2, word⟩

private theorem next_spots (tidy : s.Tidy) {ahead behind : List Spot} {spot : Spot}
    (split : s.spots = ahead ++ spot :: behind)
    (free : spot.2.2 = false) {h : Handle} (follows : s.next? spot.1 = some h) :
    h.chain = spot.1.chain ∧ ∃ next rest, behind = next :: rest ∧ next.1 = h ∧
      (s.get? h).map (·.kind) = some next.2.1 := by
  obtain ⟨owner, front, piece, back, _, behind', held, view, rfl, _, rfl⟩ := tidy.located split
  have nothing : piece.2.2 = none := by simpa using free
  rw [(tidy.sound.beside held view).1] at follows
  cases back with
  | nil => cases follows
  | cons other more =>
    obtain rfl : other.1 = h := by simpa using follows
    have own : other.1.chain = piece.1.chain := by
      have sound := tidy.sound.owner? held
      rw [sound.chain_of_view (show other ∈ owner.view by simp [view]),
        sound.chain_of_view (show piece ∈ owner.view by simp [view])]
    have split' : owner.view = (front ++ [piece]) ++ other :: more := by simp [view]
    refine ⟨own, (other.1, other.2.1.kind, other.2.2.isSome),
      (other.2.2.map spots).getD [] ++ (more.flatMap spotsAt ++ behind'), by simp [nothing, spotsAt], rfl, ?_⟩
    rw [(tidy.sound.beside (own ▸ held) split').2]
    rfl

/-- The end of a line is the token or the line break that is read right after it. -/
theorem lineEnd_spots (tidy : s.Tidy) {ahead behind : List Spot} {spot : Spot}
    (split : s.spots = ahead ++ spot :: behind) (free : spot.2.2 = false) :
    s.lineEnd spot.1 = spot.1 ∨ ∃ next rest, behind = next :: rest ∧ s.lineEnd spot.1 = next.1 ∧
      next.2.1 = .newLine ∧ next.1.chain = spot.1.chain := by
  unfold TokenStream.lineEnd
  cases follows : s.next? spot.1 with
  | none => exact .inl rfl
  | some h =>
    obtain ⟨own, next, rest, behind_eq, rfl, kind⟩ := tidy.next_spots split free follows
    dsimp only
    split_ifs with broken
    · obtain ⟨token, stored, same⟩ := Option.map_eq_some_iff.mp kind
      rw [stored] at broken
      exact .inr ⟨next, rest, behind_eq, rfl, same.symm.trans (beq_iff_eq.mp broken), own⟩
    · exact .inl rfl

/-- Behind a token, and behind the line break that follows it, the same code is read. -/
theorem behind_stop (tidy : s.Tidy) {last stop : Handle} (stops : stop = last ∨ stop = s.lineEnd last)
    {front back : List Handle} (listed : (front ++ last :: back).Sublist s.code) :
    (∀ spot ∈ s.spots, spot.1 = stop → spot.2.2 = false) ∧
      ∀ ahead spot behind, s.spots = ahead ++ spot :: behind → spot.1 = stop → back.Sublist (codeOf behind) := by
  obtain ⟨spot, member, rfl⟩ : ∃ spot ∈ s.spots, spot.1 = last :=
    List.mem_map.mp ((codeOf_sublist _).subset (listed.subset (by simp)))
  obtain ⟨ahead, behind, split⟩ := List.append_of_mem member
  obtain ⟨_, free, _, right⟩ := tidy.around split listed
  have unique {ahead' behind' : List Spot} {other other' : Spot} (one : s.spots = ahead' ++ other :: behind')
      (inside : other' ∈ s.spots) (same : other'.1 = other.1) : other' = other :=
    List.inj_on_of_nodup_map tidy.nodup inside (by simp [one]) same
  have here : stop = spot.1 ∨ ∃ next rest, behind = next :: rest ∧ stop = next.1 ∧ next.2.1 = .newLine ∧
      next.1.chain = spot.1.chain := by
    rcases stops with rfl | rfl
    · exact .inl rfl
    · exact tidy.lineEnd_spots split free
  rcases here with rfl | ⟨next, rest, rfl, rfl, broken, _⟩
  · refine ⟨fun other inside same => unique split inside same ▸ free, fun ahead' other behind' split' same => ?_⟩
    obtain ⟨_, _, rfl⟩ := split_unique (split ▸ tidy.nodup) (split.symm.trans split') same.symm
    exact right
  · have split₁ : s.spots = (ahead ++ [spot]) ++ next :: rest := by simp [split]
    refine ⟨fun other inside same => ?_, fun ahead' other behind' split' same => ?_⟩
    · rw [unique split₁ inside same]
      exact tidy.bare next (by simp [split]) broken
    · obtain ⟨_, _, rfl⟩ := split_unique (split₁ ▸ tidy.nodup) (split₁.symm.trans split') same.symm
      have nothing : codeOf [next] = [] := by simp [codeOf, broken]
      rwa [codeOf_cons, nothing] at right

/-- A row is removed from its first token to its last, with the line break behind it if there is one. -/
theorem erase (tidy : s.Tidy) {row : List Handle} {first last stop : Handle} (begins : row.head? = some first)
    (ends : row.getLast? = some last) (stops : stop = last ∨ stop = s.lineEnd last)
    (done : s.erase first stop = .ok after) : Rewrites s after row [] := by
  obtain ⟨tidy', _, _, ahead, middle, behind, split, now, start, finish⟩ := tidy.erase_spots done
  refine ⟨tidy', fun front back listed => ?_, by simp⟩
  obtain ⟨rest, rfl⟩ : ∃ rest, row = first :: rest := List.head?_eq_some_iff.mp begins
  obtain ⟨most, whole⟩ := List.getLast?_eq_some_iff.mp ends
  have listed' : ((front ++ most) ++ last :: back).Sublist s.code := by simpa [whole] using listed
  obtain ⟨free, right⟩ := tidy.behind_stop stops listed'
  -- What stands before the row is read before its first token, and what stands behind it after its last.
  have left : front.Sublist (codeOf ahead) := by
    obtain ⟨spot, more, rfl, rfl⟩ : ∃ spot more, middle = spot :: more ∧ spot.1 = first := by
      cases middle with
      | nil => cases start
      | cons spot more => exact ⟨spot, more, rfl, by simpa using start⟩
    exact (tidy.around (by simpa using split) (by simpa using listed)).2.2.1
  have right : back.Sublist (codeOf behind) := by
    obtain ⟨spot, last, named⟩ := Option.map_eq_some_iff.mp (finish free)
    obtain ⟨more, rfl⟩ := List.getLast?_eq_some_iff.mp last
    exact right (ahead ++ more) spot behind (by simp [split]) named
  rw [code, now, codeOf_append]
  exact left.append right

/-! ### Places between tokens -/

/-- The token that starts the line after another one is read after the latter and before all that follows it. -/
theorem next_line (tidy : s.Tidy) {last h : Handle} (follows : s.next? (s.lineEnd last) = some h)
    {front back : List Handle} (listed : (front ++ last :: back).Sublist s.code) :
    h.chain = last.chain ∧ ∃ ahead next behind, s.spots = ahead ++ next :: behind ∧ next.1 = h ∧
      (front ++ [last]).Sublist (codeOf ahead) ∧ back.Sublist (codeOf (next :: behind)) := by
  obtain ⟨spot, member, rfl⟩ : ∃ spot ∈ s.spots, spot.1 = last :=
    List.mem_map.mp ((codeOf_sublist _).subset (listed.subset (by simp)))
  obtain ⟨ahead, behind, split⟩ := List.append_of_mem member
  obtain ⟨one, free, left, right⟩ := tidy.around split listed
  have left' : (front ++ [spot.1]).Sublist (codeOf (ahead ++ [spot])) := by
    rw [codeOf_append, one]
    exact left.append_right _
  rcases tidy.lineEnd_spots split free with same | ⟨stop, rest, rfl, same, broken, own⟩
  · rw [same] at follows
    obtain ⟨chain, next, rest, rfl, named, _⟩ := tidy.next_spots split free follows
    exact ⟨chain, ahead ++ [spot], next, rest, by simp [split], named, left', right⟩
  · rw [same] at follows
    have split' : s.spots = (ahead ++ [spot]) ++ stop :: rest := by simp [split]
    have nothing : codeOf [stop] = [] := by simp [codeOf, broken]
    obtain ⟨chain, next, more, rfl, named, _⟩ :=
      tidy.next_spots split' (tidy.bare stop (by simp [split]) broken) follows
    refine ⟨chain.trans own, (ahead ++ [spot]) ++ [stop], next, more, by simp [split], named, ?_, ?_⟩
    · rw [codeOf_append, nothing, List.append_nil]
      exact left'
    · rwa [codeOf_cons stop, nothing] at right

theorem first_spots (tidy : s.Tidy) {h : Handle} (first : s.first? = some h) :
    ∃ next behind, s.spots = next :: behind ∧ next.1 = h := by
  rw [tidy.sound.ends.1] at first
  obtain ⟨piece, begins, rfl⟩ := Option.map_eq_some_iff.mp first
  obtain ⟨rest, view⟩ := List.head?_eq_some_iff.mp begins
  exact ⟨_, _, by rw [spots_eq, view, List.flatMap_cons]; rfl, rfl⟩

end Tidy

end YaraRules.TokenStream

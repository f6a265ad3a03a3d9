import YaraRules.Layout.Item
import YaraRules.Proofs.StreamArrivals

/-! Streams in which tokens gave way to equal ones. The tokens of a part have other handles,
and line breaks there are written as the first one of the stream; all else is what it was.
Where no alias leads into the part, every token has the text that it had, and a change of
a token outside the part comes to the same. -/

namespace YaraRules

theorem map_fixed {α : Type} {f : α → α} {xs : List α} (fixed : ∀ x ∈ xs, f x = x) : xs.map f = xs :=
  (List.map_congr_left fixed).trans (List.map_id _)

/-- Items that are related are so as members. -/
theorem forall₂_members {α β : Type} {related : α → β → Prop} {xs : List α} {ys : List β}
    (all : List.Forall₂ related xs ys) : List.Forall₂ (fun x y => x ∈ xs ∧ y ∈ ys ∧ related x y) xs ys := by
  rw [List.forall₂_iff_zip] at all ⊢
  exact ⟨all.1, fun pair => ⟨(List.of_mem_zip pair).1, (List.of_mem_zip pair).2, all.2 pair⟩⟩

theorem forall₂_trans {α β γ : Type} {first : α → β → Prop} {second : β → γ → Prop} {related : α → γ → Prop}
    (step : ∀ x y z, first x y → second y z → related x z) {xs : List α} {ys : List β} {zs : List γ}
    (one : List.Forall₂ first xs ys) (two : List.Forall₂ second ys zs) : List.Forall₂ related xs zs := by
  induction one generalizing zs with
  | nil =>
    cases two
    exact .nil
  | cons head _ ih =>
    cases two with
    | cons head' rest => exact .cons (step _ _ _ head head') (ih rest)

private theorem find?_related {α : Type} {related : α → α → Prop} {p : α → Bool} {xs ys : List α}
    (all : List.Forall₂ related xs ys) (same : ∀ x y, related x y → p y = p x) : Option.Rel related (xs.find? p)
    (ys.find? p) := by
  induction all with
  | nil => exact .none
  | @cons x y _ _ one _ ih =>
    rw [List.find?_cons, List.find?_cons, same x y one]
    cases p x with
    | true => exact .some one
    | false => exact ih

namespace TokenStream

variable {s middle after : TokenStream} {zone part : List Handle} {f g : Handle → Handle} {h : Handle} {a b : Token}

/-! ### Parts that no alias leads into -/

/-- Nothing in a part of a stream owns a stream, and no alias leads there; aliases lead to tokens that are written
by their own literals. -/
structure Secluded (s : TokenStream) (zone : List Handle) : Prop where
  tidy : s.Tidy
  inside : zone <:+: s.view.map (·.1)
  bare : ∀ piece ∈ s.view, piece.1 ∈ zone → piece.2.2 = none
  firm : ∀ h a, s.get? h = some a → s.Firm a
  aside : ∀ h a target, s.get? h = some a → a.literal.aliasTarget? = some target → target ∉ zone

namespace Secluded

variable (secluded : s.Secluded zone)
include secluded

theorem within (inside : part <:+: zone) : s.Secluded part where
  tidy := secluded.tidy
  inside := inside.trans secluded.inside
  bare piece member held := secluded.bare piece member (inside.subset held)
  firm := secluded.firm
  aside h a target stored points held := secluded.aside h a target stored points (inside.subset held)

theorem chain (held : h ∈ zone) : h.chain = s.chain.id := by
  obtain ⟨piece, member, rfl⟩ := List.mem_map.mp (secluded.inside.subset held)
  exact secluded.tidy.sound.chain_of_view member

theorem stored (held : h ∈ zone) : ∃ a, s.get? h = some a := by
  obtain ⟨piece, member, rfl⟩ := List.mem_map.mp (secluded.inside.subset held)
  exact ⟨piece.2.1, (secluded.tidy.sound.get?_view secluded.tidy.distinct).mpr ⟨piece, member, .inl ⟨rfl, rfl⟩⟩⟩

end Secluded

/-! ### Equal tokens -/

/-- The same token, or a line break of the part that is written as the first one of the stream. -/
def Renewed (s : TokenStream) (inside : Prop) (old new : Token) : Prop :=
  new = old ∨ inside ∧ old.kind = .newLine ∧ ∃ text, s.firstNewline? = some text ∧ new =
    { old with literal := .ofWritten text }

namespace Renewed

variable {inside : Prop} {old new : Token}

theorem kind (renewed : s.Renewed inside old new) : new.kind = old.kind := by
  rcases renewed with rfl | ⟨_, _, _, _, rfl⟩ <;> rfl

theorem outside (renewed : s.Renewed inside old new) (apart : ¬ inside) : new = old :=
  renewed.resolve_right fun line => apart line.1

theorem word (renewed : s.Renewed inside old new) (word : old.kind ≠ .newLine) : new = old :=
  renewed.resolve_right fun line => word line.2.1

theorem of_alias (renewed : s.Renewed inside old new) {target : Handle}
    (points : new.literal.aliasTarget? = some target) : new = old := by
  rcases renewed with same | ⟨_, _, _, _, rfl⟩
  · exact same
  · cases points

end Renewed

/-- Tokens of a part gave way to equal ones under other handles, and all else is as it was. -/
structure Recast (zone : List Handle) (f : Handle → Handle) (s after : TokenStream) : Prop where
  tidy : after.Tidy
  own : after.chain.id = s.chain.id
  pieces : List.Forall₂ (fun old new : Piece => new.1 = f old.1 ∧ s.Renewed (old.1 ∈ zone) old.2.1 new.2.1 ∧
    new.2.2 = old.2.2)
    s.view after.view
  still : ∀ h, (s.get? h).isSome → h ∉ zone → f h = h

namespace Recast

theorem refl (tidy : s.Tidy) (zone : List Handle) : Recast zone (fun h => h) s s :=
  ⟨tidy, rfl, List.forall₂_same.mpr fun _ _ => ⟨rfl, .inl rfl, rfl⟩, fun _ _ _ => rfl⟩

section

variable (recast : Recast zone f s after)
include recast

theorem widen {whole : List Handle} (inside : zone ⊆ whole) : Recast whole f s after where
  tidy := recast.tidy
  own := recast.own
  pieces := recast.pieces.imp fun _ _ ⟨named, renewed, sub⟩ =>
    ⟨named, renewed.imp_right fun ⟨held, line⟩ => ⟨inside held, line⟩, sub⟩
  still h stored apart := recast.still h stored fun held => apart (inside held)

theorem handles : after.view.map (·.1) = (s.view.map (·.1)).map f := by
  have pieces := recast.pieces
  generalize s.view = old, after.view = new at pieces
  induction pieces with
  | nil => rfl
  | cons one _ ih => rw [List.map_cons, List.map_cons, List.map_cons, one.1, ih]

/-- Different tokens of the stream have different handles still. -/
theorem injective {k : Handle} (held : h ∈ s.view.map (·.1)) (held' : k ∈ s.view.map (·.1))
    (same : f h = f k) : h = k := by
  have once := recast.tidy.sound.handles_nodup
  rw [recast.handles] at once
  exact List.inj_on_of_nodup_map once held held' same

theorem tokens : List.Forall₂ (s.Renewed True) s.tokens after.tokens := by
  have view (x : TokenStream) : x.tokens = x.view.map (·.2.1) := by
    rw [TokenStream.view, List.map_map]
    rfl
  rw [view, view, List.forall₂_map_left_iff, List.forall₂_map_right_iff]
  exact recast.pieces.imp fun _ _ ⟨_, renewed, _⟩ => renewed.imp_right fun ⟨_, line⟩ => ⟨trivial, line⟩

private theorem firstNewline : after.firstNewline? = s.firstNewline? := by
  have found := find?_related (p := (·.kind == .newLine)) recast.tokens fun x y renewed => by rw [renewed.kind]
  unfold firstNewline?
  cases first : s.tokens.find? (·.kind == .newLine) with
  | none =>
    rw [first] at found
    cases there : after.tokens.find? (·.kind == .newLine) with
    | none => rfl
    | some b => simp [there] at found
  | some a =>
    rw [first] at found
    cases there : after.tokens.find? (·.kind == .newLine) with
    | none => simp [there] at found
    | some b =>
      rw [there, Option.rel_some_some] at found
      rcases found with rfl | ⟨_, _, text, written, rfl⟩
      · rfl
      · have own : s.firstNewline? = a.literal.asText? := by
          rw [firstNewline?, first]
          rfl
        exact (written.symm.trans own)

theorem newlineText : after.newlineText = s.newlineText := by
  rw [TokenStream.newlineText, TokenStream.newlineText, recast.firstNewline]

end

section

variable (secluded : s.Secluded zone) (recast : Recast zone f s after)
include secluded recast

/-- Streams that are nested in the stream are the same. -/
theorem owner?_below {id : ChainId} (apart : id ≠ s.chain.id) : after.owner? id = s.owner? id := by
  refine Option.ext fun owner => ?_
  rw [recast.tidy.sound.owner?_view recast.tidy.distinct (recast.own ▸ apart),
    secluded.tidy.sound.owner?_view secluded.tidy.distinct apart]
  constructor
  · rintro ⟨new, member, sub, owned, found⟩
    obtain ⟨old, inside, _, _, same⟩ := mem_of_forall₂ recast.pieces member
    exact ⟨old, inside, sub, same ▸ owned, found⟩
  · rintro ⟨old, member, sub, owned, found⟩
    obtain ⟨new, inside, _, _, same⟩ := mem_of_forall₂ recast.pieces.flip member
    exact ⟨new, inside, sub, same.trans owned, found⟩

theorem below (apart : h.chain ≠ s.chain.id) : after.get? h = s.get? h := by
  rw [TokenStream.get?, TokenStream.get?, recast.owner?_below secluded apart]

theorem get? (stored : s.get? h = some a) : ∃ b, after.get? (f h) = some b ∧ s.Renewed (h ∈ zone) a b := by
  by_cases top : h.chain = s.chain.id
  · obtain ⟨old, member, ⟨rfl, rfl⟩ | ⟨apart, _⟩⟩ := (secluded.tidy.sound.get?_view secluded.tidy.distinct).mp stored
    · obtain ⟨new, inside, named, renewed, _⟩ := mem_of_forall₂ recast.pieces.flip member
      exact ⟨new.2.1, (recast.tidy.sound.get?_view recast.tidy.distinct).mpr ⟨new, inside, .inl ⟨named, rfl⟩⟩, renewed⟩
    · exact absurd top apart
  · have outside : h ∉ zone := fun held => top (secluded.chain held)
    refine ⟨a, ?_, .inl rfl⟩
    rw [recast.still h (by simp [stored]) outside, recast.below secluded top, stored]

private theorem get?_aside (stored : s.get? h = some a) (apart : h ∉ zone) : after.get? h = some a := by
  obtain ⟨b, found, renewed⟩ := recast.get? secluded stored
  rwa [recast.still h (by simp [stored]) apart, renewed.outside apart] at found

theorem get?_new (stored : after.get? h = some b) : ∃ k a, f k = h ∧ s.get? k = some a ∧ s.Renewed (k ∈ zone) a b := by
  by_cases top : h.chain = after.chain.id
  · obtain ⟨new, member, ⟨rfl, rfl⟩ | ⟨apart, _⟩⟩ := (recast.tidy.sound.get?_view recast.tidy.distinct).mp stored
    · obtain ⟨old, inside, named, renewed, _⟩ := mem_of_forall₂ recast.pieces member
      exact ⟨old.1, old.2.1, named.symm, (secluded.tidy.sound.get?_view secluded.tidy.distinct).mpr
        ⟨old, inside, .inl ⟨rfl, rfl⟩⟩, renewed⟩
    · exact absurd top apart
  · have below : h.chain ≠ s.chain.id := fun same => top (same.trans recast.own.symm)
    have held : s.get? h = some b := (recast.below secluded below).symm.trans stored
    exact ⟨h, b, recast.still h (by simp [held]) fun inside => below (secluded.chain inside), held, .inl rfl⟩

/-- No token outside the part comes to be where a token of the part went. -/
theorem apart (stored : (s.get? h).isSome) (outside : h ∉ zone) : h ∉ zone.map f := by
  intro held
  obtain ⟨k, inside, same⟩ := List.mem_map.mp held
  have listed := secluded.inside.subset inside
  obtain ⟨a, found⟩ := Option.isSome_iff_exists.mp stored
  obtain ⟨piece, member, ⟨rfl, _⟩ | ⟨below, _⟩⟩ := (secluded.tidy.sound.get?_view secluded.tidy.distinct).mp found
  · have fixed := recast.still piece.1 stored outside
    exact outside (recast.injective listed (List.mem_map_of_mem member) (same.trans fixed.symm) ▸ inside)
  · have top : f k ∈ after.view.map (·.1) := by
      rw [recast.handles]
      exact List.mem_map_of_mem listed
    obtain ⟨piece, member, named⟩ := List.mem_map.mp top
    exact below (same ▸ named ▸ (recast.tidy.sound.chain_of_view member).trans recast.own)

theorem remains : after.Secluded (zone.map f) where
  tidy := recast.tidy
  inside := by
    rw [recast.handles]
    exact secluded.inside.map f
  bare new member held := by
    obtain ⟨old, inside, named, _, sub⟩ := mem_of_forall₂ recast.pieces member
    rw [named] at held
    obtain ⟨k, listed, same⟩ := List.mem_map.mp held
    obtain rfl := recast.injective (secluded.inside.subset listed) (List.mem_map_of_mem inside) same
    exact sub.trans (secluded.bare old inside listed)
  firm h b stored target points := by
    obtain ⟨k, a, _, found, renewed⟩ := recast.get?_new secluded stored
    obtain rfl := renewed.of_alias points
    obtain ⟨c, held, plain⟩ := secluded.firm k b found target points
    exact ⟨c, recast.get?_aside secluded held (secluded.aside k b target found points), plain⟩
  aside h b target stored points := by
    obtain ⟨k, a, _, found, renewed⟩ := recast.get?_new secluded stored
    obtain rfl := renewed.of_alias points
    obtain ⟨c, held, _⟩ := secluded.firm k b found target points
    exact recast.apart secluded (by simp [held]) (secluded.aside k b target found points)

end

theorem trans (secluded : s.Secluded zone) (recast : Recast zone f s middle)
    (next : Recast (zone.map f) g middle after) : Recast zone (g ∘ f) s after where
  tidy := next.tidy
  own := next.own.trans recast.own
  pieces := by
    refine forall₂_trans ?_ (forall₂_members recast.pieces) next.pieces
    rintro old between new ⟨member, _, named, renewed, sub⟩ ⟨named', renewed', sub'⟩
    refine ⟨by rw [named', named, Function.comp_apply], ?_, sub'.trans sub⟩
    rcases renewed' with same | ⟨held, line, text, written, same⟩
    · exact same ▸ renewed
    · -- A token of the part is where one of the part was.
      rw [named] at held
      obtain ⟨k, inside, equal⟩ := List.mem_map.mp held
      obtain rfl := recast.injective (secluded.inside.subset inside) (List.mem_map_of_mem member) equal
      rw [recast.firstNewline] at written
      refine .inr ⟨inside, renewed.kind.symm.trans line, text, written, ?_⟩
      rcases renewed with equal | ⟨_, _, _, _, equal⟩ <;> rw [same, equal]
  still h stored outside := by
    obtain ⟨a, found⟩ := Option.isSome_iff_exists.mp stored
    have fixed := recast.still h stored outside
    have there := recast.get?_aside secluded found outside
    rw [Function.comp_apply, fixed]
    exact next.still h (by simp [there]) (recast.apart secluded stored outside)

/-! ### What can be read -/

section

variable (secluded : s.Secluded zone) (recast : Recast zone f s after)
include secluded recast

theorem textOf (stored : s.get? h = some a) : after.textOf a = s.textOf a := by
  cases points : a.literal.aliasTarget? with
  | none => rw [textOf_plain _ points, textOf_plain _ points]
  | some target =>
    obtain ⟨b, held, plain⟩ := secluded.firm h a stored target points
    have there := recast.get?_aside secluded held (secluded.aside h a target stored points)
    rw [textOf_alias _ points held plain, textOf_alias _ points there plain]

/-- A token that is no line break has the text that it had. -/
theorem text (stored : s.get? h = some a) (word : a.kind ≠ .newLine) : after.text (f h) = s.text h := by
  obtain ⟨b, found, renewed⟩ := recast.get? secluded stored
  obtain rfl := renewed.word word
  rw [text_eq _ found, text_eq _ stored, recast.textOf secluded stored]

theorem text_aside (stored : s.get? h = some a) (apart : h ∉ zone) : after.text h = s.text h := by
  rw [text_eq _ stored, text_eq _ (recast.get?_aside secluded stored apart), recast.textOf secluded stored]

theorem spanned {first last : Handle} {handles : List Handle} (spanned : s.Spanned first last handles)
    (apart : handles.Disjoint zone) : after.Spanned first last handles := by
  have fixed : handles.map f = handles := map_fixed fun h held => by
    obtain ⟨_, a, stored⟩ := spanned.stored secluded.tidy.sound held
    exact recast.still h (by simp [stored]) (apart held)
  obtain ⟨owner, held, inside, ends⟩ := spanned
  by_cases top : first.chain = s.chain.id
  · obtain rfl : s = owner := Option.some.inj ((owner?_top top).symm.trans held)
    refine ⟨after, owner?_top (top.trans recast.own.symm), ?_, ends⟩
    rw [handles_view] at inside ⊢
    rw [recast.handles, ← fixed]
    exact inside.map f
  · exact ⟨owner, (recast.owner?_below secluded top).trans held, inside, ends⟩

end

end Recast

/-! ### Layout -/

section

open Layout

/-- Lists of tokens have the same items if each token has the item of the other and the same included file. -/
theorem itemsOf_related {included included' : List (Nat × List Item)} {old new : List (Handle × Token)}
    (same : List.Forall₂ (fun e e' : Handle × Token => itemOf after e'.2 = itemOf s e.2 ∧ e'.2.kind = e.2.kind ∧
      included'.lookup e'.1.index = included.lookup e.1.index) old new) :
    ∀ skip, itemsOf after included' skip new = itemsOf s included skip old := by
  induction same with
  | nil => exact fun _ => rfl
  | @cons e e' _ _ one _ ih =>
    intro skip
    obtain ⟨item, kind, below⟩ := one
    simp only [itemsOf, item, kind, below, ih]

private theorem lookup_includedItems (index : Nat) : ∀ {nested : List (Nat × Option TokenStream)},
    (∀ place ∈ nested, place.2.isSome) → (includedItems nested).lookup index =
    (nested.lookup index).join.map expandedItems
  | [], _ => rfl
  | (place, some sub) :: rest, owned => by
    have later := lookup_includedItems index fun other member => owned other (List.mem_cons_of_mem _ member)
    by_cases same : index = place
    · simp [includedItems, same]
    · simp [includedItems, lookup_cons_eq, same, later]
  | (place, none) :: _, owned => by simpa using owned (place, none) (by simp)

private theorem Sound.lookup_included (sound : s.Sound) (index : Nat) :
    (includedItems s.nested).lookup index = (s.subAt? index).map expandedItems :=
  lookup_includedItems index fun (_, place) member => by
    obtain ⟨sub, rfl⟩ := sound.owned member
    rfl

theorem Recast.items (secluded : s.Secluded zone) (recast : Recast zone f s after) (expand : Bool) :
    Layout.items after expand = Layout.items s expand := by
  have view (x : TokenStream) : x.entries = x.view.map fun piece => (piece.1, piece.2.1) := by
    rw [TokenStream.view, List.map_map]
    exact (List.map_id _).symm
  have entries (included included' : List (Nat × List Item)) (files : ∀ old ∈ s.view, ∀ new ∈ after.view,
    new.2.2 = old.2.2 →
      included'.lookup new.1.index = included.lookup old.1.index) :
      itemsOf after included' false after.entries = itemsOf s included false s.entries := by
    refine itemsOf_related ?_ false
    rw [view, view, List.forall₂_map_left_iff, List.forall₂_map_right_iff]
    refine (forall₂_members recast.pieces).imp ?_
    rintro old new ⟨member, member', named, renewed, sub⟩
    have stored := (secluded.tidy.sound.get?_view secluded.tidy.distinct).mpr ⟨old, member, .inl ⟨rfl, rfl⟩⟩
    refine ⟨?_, renewed.kind, files old member new member' sub⟩
    by_cases line : old.2.1.kind = .newLine
    · have line' : new.2.1.kind = .newLine := renewed.kind.trans line
      simp [itemOf, line, line']
    · have equal : new.2.1 = old.2.1 := renewed.word line
      simp [itemOf, equal, recast.textOf secluded stored]
  unfold Layout.items
  cases expand with
  | false => exact entries [] [] fun _ _ _ _ _ => rfl
  | true =>
    have whole (x : TokenStream) : expandedItems x = itemsOf x (includedItems x.nested) false x.entries := by
      cases x
      rfl
    rw [if_pos rfl, if_pos rfl, whole, whole]
    refine entries _ _ fun old member new member' sub => ?_
    obtain ⟨entry, _, rfl⟩ := List.mem_map.mp member
    obtain ⟨entry', _, rfl⟩ := List.mem_map.mp member'
    rw [recast.tidy.sound.lookup_included, secluded.tidy.sound.lookup_included]
    exact congrArg _ sub

end

/-! ### Literals that change -/

private theorem lookup_modifyOwnerAmong (id : ChainId) (f : TokenStream → TokenStream) (index : Nat) :
    ∀ {nested : List (Nat × Option TokenStream)}, (idsAmong nested).Nodup →
      ((modifyOwnerAmong id f nested).lookup index).join = (nested.lookup index).join.map (modifyOwner id f)
  | [], _ => rfl
  | (place, none) :: rest, distinct => by
    have later := lookup_modifyOwnerAmong id f index (show (idsAmong rest).Nodup by simpa [idsAmong] using distinct)
    by_cases same : index = place
    · simp [modifyOwnerAmong, same]
    · simp [modifyOwnerAmong, lookup_cons_eq, same, later]
  | (place, some sub) :: rest, distinct => by
    obtain ⟨_, others, apart⟩ := List.nodup_append'.mp (show (sub.ids ++ idsAmong rest).Nodup from distinct)
    by_cases held : (sub.owner? id).isSome
    · by_cases same : index = place
      · simp [modifyOwnerAmong, held, same]
      · -- Streams behind the one that holds the identity do not hold it.
        have absent (other : TokenStream) (found : (rest.lookup index).join = some other) :
            other.modifyOwner id f = other := by
          obtain ⟨owner, owned⟩ := Option.isSome_iff_exists.mp held
          refine modifyOwner_absent (Option.eq_none_iff_forall_ne_some.mpr fun owner' owned' => ?_)
          exact apart (mem_ids_of_owner? owned) ((ids_of_lookup found).subset (mem_ids_of_owner? owned'))
        have kept : (rest.lookup index).join.map (modifyOwner id f) = (rest.lookup index).join := by
          cases found : (rest.lookup index).join with
          | none => rfl
          | some other => rw [Option.map_some, absent other found]
        simp [modifyOwnerAmong, held, lookup_cons_eq, same, kept]
    · have later := lookup_modifyOwnerAmong id f index others
      have absent : sub.modifyOwner id f = sub := modifyOwner_absent (by simpa using held)
      by_cases same : index = place
      · simp [modifyOwnerAmong, held, same, absent]
      · simp [modifyOwnerAmong, held, lookup_cons_eq, same, later]

private theorem view_modify_below (distinct : s.ids.Nodup) (apart : h.chain ≠ s.chain.id) (change : Token → Token) :
    (s.modify h change).view = s.view.map fun piece => (piece.1, piece.2.1, piece.2.2.map (·.modify h change)) := by
  obtain ⟨chain, nested⟩ := s
  have among := (List.nodup_cons.mp distinct).2
  have direct : modify ⟨chain, nested⟩ h change =
      ⟨chain, modifyOwnerAmong h.chain (onChain (·.modify h change)) nested⟩ := by
    rw [modify_eq, modifyOwner, if_neg (Ne.symm apart)]
  rw [direct, view, view, List.map_map]
  refine List.map_congr_left fun entry _ => ?_
  simp only [piece, subAt?, Function.comp_apply, lookup_modifyOwnerAmong _ _ _ among]
  rfl

private theorem Sound.view_setLiteral (sound : s.Sound) (distinct : s.ids.Nodup) (h : Handle) (literal : Literal) :
    (s.setLiteral h literal).view = s.view.map fun piece =>
      (piece.1, if piece.1 = h then { piece.2.1 with literal } else piece.2.1,
      piece.2.2.map (·.setLiteral h literal)) := by
  by_cases top : h.chain = s.chain.id
  · refine (sound.view_modify top _).trans (List.map_congr_left fun piece member => ?_)
    have absent : piece.2.2.map (·.setLiteral h literal) = piece.2.2 := by
      obtain ⟨entry, _, rfl⟩ := List.mem_map.mp member
      cases owned : (s.piece entry).2.2 with
      | none => rfl
      | some sub =>
        have missing : sub.owner? h.chain = none := Option.eq_none_iff_forall_ne_some.mpr fun owner held => by
          have inside := (ids_of_lookup owned).subset (mem_ids_of_owner? held)
          obtain ⟨chain, nested⟩ := s
          exact (List.nodup_cons.mp distinct).1 (show chain.id ∈ idsAmong nested from top ▸ inside)
        rw [Option.map_some, TokenStream.setLiteral, modify_eq, modifyOwner_absent missing]
    rw [absent]
    split_ifs with same
    · rw [same]
    · rfl
  · refine (view_modify_below distinct top _).trans (List.map_congr_left fun piece member => ?_)
    have apart : piece.1 ≠ h := fun same => top (same ▸ sound.chain_of_view member)
    rw [if_neg apart]
    rfl

theorem get?_setLiteral (s : TokenStream) (h : Handle) (literal : Literal) (k : Handle) :
    (s.setLiteral h literal).get? k = if k = h then (s.get? h).map fun a => { a with literal } else s.get? k :=
  s.get?_modify h _ k

private theorem firstNewline_setLiteral (sound : s.Sound) (distinct : s.ids.Nodup) (literal : Literal)
    (stored : s.get? h = some a)
    (word : a.kind ≠ .newLine) : (s.setLiteral h literal).firstNewline? = s.firstNewline? := by
  have view (x : TokenStream) : x.tokens = x.view.map (·.2.1) := by
    rw [TokenStream.view, List.map_map]
    rfl
  have same : List.Forall₂ (fun old new : Token => new.kind = old.kind ∧ (old.kind = .newLine → new = old)) s.tokens
      (s.setLiteral h literal).tokens := by
    rw [view, view, sound.view_setLiteral distinct, List.forall₂_map_left_iff, List.forall₂_map_right_iff,
      List.forall₂_map_right_iff]
    refine List.forall₂_same.mpr fun piece member => ?_
    dsimp only
    split_ifs with here
    · refine ⟨rfl, fun line => ?_⟩
      have found := (sound.get?_view distinct).mpr ⟨piece, member, .inl ⟨here, rfl⟩⟩
      obtain rfl := Option.some.inj (stored.symm.trans found)
      exact absurd line word
    · exact ⟨rfl, fun _ => rfl⟩
  have found := find?_related (p := (·.kind == .newLine)) same fun x y both => by rw [both.1]
  unfold firstNewline?
  cases first : s.tokens.find? (·.kind == .newLine) with
  | none =>
    rw [first] at found
    cases there : (s.setLiteral h literal).tokens.find? (·.kind == .newLine) with
    | none => rfl
    | some b => simp [there] at found
  | some b =>
    rw [first] at found
    cases there : (s.setLiteral h literal).tokens.find? (·.kind == .newLine) with
    | none => simp [there] at found
    | some c =>
      rw [there, Option.rel_some_some] at found
      have line : b.kind = .newLine := by simpa using List.find?_some first
      rw [found.2 line]

/-- Nothing comes to lead into the part when a token is written by a literal of its own. -/
theorem Secluded.setLiteral (secluded : s.Secluded zone) (h : Handle) {literal : Literal}
    (plain : literal.aliasTarget? = none) : (s.setLiteral h literal).Secluded zone := by
  have changed (k : Handle) (b : Token) (found : (s.setLiteral h literal).get? k = some b) {target : Handle}
      (points : b.literal.aliasTarget? = some target) : s.get? k = some b := by
    rw [get?_setLiteral] at found
    split_ifs at found with same
    · obtain ⟨a, _, rfl⟩ := Option.map_eq_some_iff.mp found
      cases plain.symm.trans points
    · exact found
  refine ⟨(secluded.tidy.setLiteral h literal []).tidy, ?_, fun piece member held => ?_, fun k b found target points =>
    ?_, fun k b target found points => secluded.aside k b target (changed k b found points) points⟩
  · rw [secluded.tidy.sound.view_setLiteral secluded.tidy.distinct, List.map_map]
    exact secluded.inside
  · rw [secluded.tidy.sound.view_setLiteral secluded.tidy.distinct] at member
    obtain ⟨old, inside, rfl⟩ := List.mem_map.mp member
    simp [secluded.bare old inside held]
  · obtain ⟨c, held, own⟩ := secluded.firm k b (changed k b found points) target points
    rw [get?_setLiteral]
    split_ifs with same
    · exact ⟨{ c with literal }, by rw [← same, held]; rfl, plain⟩
    · exact ⟨c, held, own⟩

/-- A change of a token outside the part comes to the same. -/
theorem Recast.setLiteral (secluded : s.Secluded zone) (recast : Recast zone f s after) (literal : Literal)
    (stored : s.get? h = some a) (word : a.kind ≠ .newLine) (apart : h ∉ zone) : Recast zone f (s.setLiteral h literal)
    (after.setLiteral h literal) where
  tidy := (recast.tidy.setLiteral h literal []).tidy
  own := by
    have id (x : TokenStream) : (x.setLiteral h literal).chain.id = x.chain.id := x.id_modify h _
    rw [id, id, recast.own]
  pieces := by
    rw [secluded.tidy.sound.view_setLiteral secluded.tidy.distinct,
      recast.tidy.sound.view_setLiteral recast.tidy.distinct, List.forall₂_map_left_iff, List.forall₂_map_right_iff]
    refine (forall₂_members recast.pieces).imp ?_
    rintro old new ⟨member, member', named, renewed, sub⟩
    refine ⟨named, ?_, by rw [sub]⟩
    have fixed : f h = h := recast.still h (by simp [stored]) apart
    rw [Renewed, firstNewline_setLiteral secluded.tidy.sound secluded.tidy.distinct literal stored word]
    by_cases here : old.1 = h
    · have equal : new.2.1 = old.2.1 := renewed.outside (here ▸ apart)
      rw [if_pos here, if_pos (by rw [named, here, fixed]), equal]
      exact .inl rfl
    · have away : new.1 ≠ h := by
        intro there
        have found := (recast.tidy.sound.get?_view recast.tidy.distinct).mpr ⟨new, member', .inl ⟨there, rfl⟩⟩
        obtain ⟨piece, listed, ⟨here', _⟩ | ⟨below, _⟩⟩ :=
          (secluded.tidy.sound.get?_view secluded.tidy.distinct).mp stored
        · refine here (recast.injective (List.mem_map_of_mem member) (here' ▸ List.mem_map_of_mem listed) ?_)
          rw [← named, there, fixed]
        · exact below (there ▸ (recast.tidy.sound.chain_of_view member').trans recast.own)
      rw [if_neg here, if_neg away]
      exact renewed
  still k found outside := by
    refine recast.still k ?_ outside
    rw [get?_setLiteral] at found
    split_ifs at found with same
    · simpa [same] using found
    · exact found

/-- Tokens that change in place keep their handles. -/
theorem Alike.handles {related : Handle → Token → Token → Prop} (alike : Alike related s after) :
    after.entries.map (·.1) = s.entries.map (·.1) := by
  have pairs := alike.entries
  rw [entries_eq, entries_eq]
  generalize s.chain.entries = old, after.chain.entries = new at pairs
  induction pairs with
  | nil => rfl
  | cons one _ ih => rw [List.map_cons, List.map_cons, one.1, ih]

theorem Spanned.setLiteral {first last : Handle} {handles : List Handle} (spanned : s.Spanned first last handles)
    (sound : s.Sound) (h : Handle) (literal : Literal) : (s.setLiteral h literal).Spanned first last handles := by
  obtain ⟨owner, held, inside, ends⟩ := spanned
  have owners := (sound.modify_touched h fun token => { token with literal }).2.owner? first.chain
  rw [held] at owners
  generalize there : TokenStream.owner? first.chain (s.modify h _) = found at owners
  cases owners with
  | some alike => exact ⟨_, there, alike.handles ▸ inside, ends⟩

end TokenStream

end YaraRules

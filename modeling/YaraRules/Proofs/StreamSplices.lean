import YaraRules.Proofs.NodeRanges
import YaraRules.Proofs.StreamSights

/-! Streams in which pieces gave way to others. Whatever stands before and behind the place is
found as before and has the same text, and so have ranges of tokens that do not reach
over it. -/

namespace YaraRules

open TokenStream (sublist_around)

/-! ### Parts of a list -/

private theorem split_once {α : Type} {x : α} {front back front' back' : List α} (once : (front ++ x :: back).Nodup)
    (same : front ++ x :: back = front' ++ x :: back') : front = front' ∧ back = back' := by
  rw [List.nodup_middle, List.nodup_cons, List.mem_append, not_or] at once
  exact ((List.append_cons_inj_of_notMem once.1.1 once.1.2).mp same).imp_right (·.2)

/-- A part whose last item comes before another item lies before it. -/
theorem infix_before {α : Type} {front back part : List α} {x last : α} (once : (front ++ x :: back).Nodup)
    (inside : part <:+: front ++ x :: back) (ends : part.getLast? = some last)
    (order : [last, x].Sublist (front ++ x :: back)) : part <:+: front := by
  obtain ⟨most, rfl⟩ := List.getLast?_eq_some_iff.mp ends
  obtain ⟨ahead, behind, whole⟩ := inside
  have early := (sublist_around once (show ([last] ++ x :: []).Sublist _ from order)).1
  obtain ⟨left, right, rfl⟩ := List.append_of_mem (List.singleton_sublist.mp early)
  have parts : (left ++ last :: (right ++ x :: back)) = (ahead ++ most) ++ last :: behind := by simpa using whole.symm
  obtain ⟨rfl, _⟩ := split_once (by simpa using once) parts
  exact ⟨ahead, right, by simp⟩

/-- A part whose first item comes behind another item lies behind it. -/
theorem infix_behind {α : Type} {front back part : List α} {x first : α} (once : (front ++ x :: back).Nodup)
    (inside : part <:+: front ++ x :: back) (begins : part.head? = some first)
    (order : [x, first].Sublist (front ++ x :: back)) : part <:+: back := by
  obtain ⟨rest, rfl⟩ := List.head?_eq_some_iff.mp begins
  obtain ⟨ahead, behind, whole⟩ := inside
  have late := (sublist_around once (show ([] ++ x :: [first]).Sublist _ from order)).2
  obtain ⟨left, right, rfl⟩ := List.append_of_mem (List.singleton_sublist.mp late)
  have parts : (front ++ x :: left) ++ first :: right = ahead ++ first :: (rest ++ behind) := by simpa using whole.symm
  obtain ⟨_, rfl⟩ := split_once (by simpa using once) parts
  exact ⟨left, behind, by simp⟩

/-- A part whose ends are in another part lies within that one. -/
theorem infix_within {α : Type} {list part whole : List α} {first last : α} (once : list.Nodup)
    (inside : part <:+: list) (outer : whole <:+: list) (begins : part.head? = some first)
    (ends : part.getLast? = some last) (held : first ∈ whole) (held' : last ∈ whole) : part <:+: whole := by
  obtain ⟨ahead, behind, rfl⟩ := outer
  obtain ⟨left, right, same⟩ := inside
  obtain ⟨rest, rfl⟩ := List.head?_eq_some_iff.mp begins
  obtain ⟨most, final⟩ := List.getLast?_eq_some_iff.mp ends
  obtain ⟨u, v, split⟩ := List.append_of_mem held
  obtain ⟨u', v', split'⟩ := List.append_of_mem held'
  have front : left ++ first :: (rest ++ right) = (ahead ++ u) ++ first :: (v ++ behind) := by simpa [split] using same
  have back : (left ++ most) ++ last :: right = (ahead ++ u') ++ last :: (v' ++ behind) := by
    simpa [split', final] using same
  rw [← same] at once
  obtain ⟨rfl, _⟩ := split_once (by simpa using once) front
  obtain ⟨_, rfl⟩ := split_once (by simpa [final] using once) back
  refine ⟨u, v', ?_⟩
  have parts : ahead ++ (u ++ first :: rest ++ v') ++ behind = ahead ++ whole ++ behind := by simpa using same
  exact List.append_cancel_left (List.append_cancel_right parts)

theorem mem_of_forall₂ {α β : Type} {related : α → β → Prop} {xs : List α} {ys : List β}
    (all : List.Forall₂ related xs ys) {y : β} (member : y ∈ ys) : ∃ x ∈ xs, related x y := by
  induction all with
  | nil => cases member
  | cons one _ ih =>
    rcases List.mem_cons.mp member with rfl | later
    · exact ⟨_, List.mem_cons_self, one⟩
    · obtain ⟨x, inside, step⟩ := ih later
      exact ⟨x, List.mem_cons_of_mem _ inside, step⟩

theorem some_of_rel {α β : Type} {related : α → β → Prop} {held : Option α} {y : β}
    (same : Option.Rel related held (some y)) : ∃ x, held = some x ∧ related x y := by
  cases same with
  | some one => exact ⟨_, rfl, one⟩

namespace TokenStream

variable {s after owner : TokenStream} {h : Handle} {a b : Token}

/-! ### Streams below -/

private theorem ownerAmong?_of_mem {id : ChainId} {index : Nat} {sub : TokenStream}
    (held : sub.owner? id = some owner) :
    ∀ {nested : List (Nat × Option TokenStream)}, (idsAmong nested).Nodup → (index, some sub) ∈ nested →
      ownerAmong? id nested = some owner
  | (_, none) :: rest, distinct, member => by
    have found : ownerAmong? id rest = some owner := ownerAmong?_of_mem held distinct (by simpa using member)
    simpa [ownerAmong?] using found
  | (_, some first) :: rest, distinct, member => by
    obtain ⟨_, others, apart⟩ := List.nodup_append'.mp (show (first.ids ++ idsAmong rest).Nodup from distinct)
    rcases List.mem_cons.mp member with same | later
    · cases same
      simp [ownerAmong?, held]
    · have found := ownerAmong?_of_mem held others later
      have missing : first.owner? id = none := by
        cases inner : first.owner? id with
        | none => rfl
        | some other => exact absurd (mem_ids_of_ownerAmong? found) (apart (mem_ids_of_owner? inner))
      simpa [ownerAmong?, missing] using found

private theorem mem_of_ownerAmong? {id : ChainId} : ∀ {nested : List (Nat × Option TokenStream)},
    ownerAmong? id nested = some owner → ∃ index sub, (index, some sub) ∈ nested ∧ sub.owner? id = some owner
  | (_, none) :: rest, found => by
    have onward : ownerAmong? id rest = some owner := by simpa [ownerAmong?] using found
    obtain ⟨index, sub, member, held⟩ := mem_of_ownerAmong? onward
    exact ⟨index, sub, by simp [member], held⟩
  | (place, some first) :: rest, found => by
    cases inner : first.owner? id with
    | some other => exact ⟨place, first, by simp, by simpa [ownerAmong?, inner] using found⟩
    | none =>
      have onward : ownerAmong? id rest = some owner := by simpa [ownerAmong?, inner] using found
      obtain ⟨index, sub, member, held⟩ := mem_of_ownerAmong? onward
      exact ⟨index, sub, by simp [member], held⟩

/-- A stream below is one that a piece owns, or one below that. -/
theorem Sound.owner?_view (sound : s.Sound) (distinct : s.ids.Nodup) {id : ChainId} (below : id ≠ s.chain.id) :
    s.owner? id = some owner ↔ ∃ piece ∈ s.view, ∃ sub, piece.2.2 = some sub ∧ sub.owner? id = some owner := by
  have onward : s.owner? id = ownerAmong? id s.nested := by
    cases s
    exact if_neg (Ne.symm below)
  rw [onward]
  constructor
  · intro found
    obtain ⟨index, sub, member, held⟩ := mem_of_ownerAmong? found
    obtain ⟨entry, stored, slot⟩ := List.mem_map.mp (sound.placed (List.mem_map_of_mem member))
    have here : s.subAt? entry.1.index = some sub := by
      obtain ⟨ahead, behind, split⟩ := List.append_of_mem member
      have places := sound.places_nodup
      rw [split, List.map_append, List.map_cons, List.nodup_middle] at places
      have looked : s.nested.lookup index = some (some sub) :=
        List.lookup_eq_some_iff.mpr ⟨ahead, behind, split, fun place early => by
          have apart : index ≠ place.1 := by
            rintro rfl
            exact (List.nodup_cons.mp places).1 (List.mem_append_left _ (List.mem_map.mpr ⟨place, early, rfl⟩))
          simpa using apart⟩
      rw [show entry.1.index = index from slot, subAt?, looked]
      rfl
    exact ⟨s.piece entry, List.mem_map_of_mem stored, sub, here, held⟩
  · rintro ⟨piece, member, sub, owned, held⟩
    obtain ⟨entry, _, rfl⟩ := List.mem_map.mp member
    have looked : (s.nested.lookup entry.1.index).join = some sub := owned
    obtain ⟨ahead, behind, split, _⟩ := List.lookup_eq_some_iff.mp (Option.join_eq_some_iff.mp looked)
    refine ownerAmong?_of_mem held ?_ (show (entry.1.index, some sub) ∈ s.nested by simp [split])
    cases s
    exact (List.nodup_cons.mp distinct).2

/-- A token is looked up in a piece, or in the stream that a piece owns. -/
theorem Sound.get?_view (sound : s.Sound) (distinct : s.ids.Nodup) :
    s.get? h = some a ↔ ∃ piece ∈ s.view, piece.1 = h ∧ piece.2.1 = a ∨
      h.chain ≠ s.chain.id ∧ ∃ sub, piece.2.2 = some sub ∧ sub.get? h = some a := by
  by_cases top : h.chain = s.chain.id
  · rw [get?_top s top, sound.chain.get?_eq_some]
    simp only [top, ne_eq, not_true_eq_false, false_and, or_false]
    constructor
    · intro stored
      exact ⟨s.piece (h, a), List.mem_map_of_mem stored, rfl, rfl⟩
    · rintro ⟨piece, member, rfl, rfl⟩
      obtain ⟨entry, stored, rfl⟩ := List.mem_map.mp member
      exact stored
  · rw [sound.get?_eq_some]
    constructor
    · rintro ⟨owner, held, stored⟩
      obtain ⟨piece, member, sub, owned, found⟩ := (sound.owner?_view distinct top).mp held
      obtain ⟨entry, _, rfl⟩ := List.mem_map.mp member
      exact ⟨_, member, .inr ⟨top, sub, owned, ((sound.sub owned).get?_eq_some _ _).mpr ⟨owner, found, stored⟩⟩⟩
    · rintro ⟨piece, member, ⟨rfl, _⟩ | ⟨_, sub, owned, found⟩⟩
      · exact absurd (sound.chain_of_view member) top
      · obtain ⟨entry, _, rfl⟩ := List.mem_map.mp member
        obtain ⟨owner, held, stored⟩ := ((sound.sub owned).get?_eq_some _ _).mp found
        exact ⟨owner, (sound.owner?_view distinct top).mpr ⟨_, member, sub, owned, held⟩, stored⟩

/-! ### Ranges -/

/-- The tokens from one to another, in the stream that they are in. -/
def Spanned (s : TokenStream) (first last : Handle) (handles : List Handle) : Prop :=
  ∃ owner, s.owner? first.chain = some owner ∧ handles <:+: owner.entries.map (·.1) ∧
    handles.head? = some first ∧ handles.getLast? = some last

theorem handles_view (s : TokenStream) : s.entries.map (·.1) = s.view.map (·.1) := by
  rw [view, List.map_map]
  rfl

theorem Spanned.rangeHandles {first last : Handle} {handles : List Handle} (spanned : s.Spanned first last handles)
    (sound : s.Sound) : s.rangeHandles first last = .ok handles := by
  obtain ⟨owner, held, inside, begins, ends⟩ := spanned
  exact (rangeHandles_owner held).trans ((sound.owner? held).rangeHandles_part inside begins ends)

/-- The tokens from one to another are those of the range. -/
theorem Spanned.range {first last : Handle} {handles : List Handle} (spanned : s.Spanned first last handles)
    (sound : s.Sound) : ∃ entries, s.range first last = .ok entries ∧ entries.map (·.1) = handles := by
  have whole := spanned.rangeHandles sound
  unfold TokenStream.rangeHandles at whole
  cases walked : s.range first last with
  | error e => simp [walked, bind, Except.bind] at whole
  | ok entries =>
    simp only [walked, bind, Except.bind] at whole
    split_ifs at whole
    cases whole
    exact ⟨entries, rfl, rfl⟩

section

variable {first last first' last' : Handle} {handles : List Handle}

/-- A row in one stream spans the tokens from its first to its last. -/
theorem Tidy.spanned (tidy : s.Tidy) {row : List Handle} (begins : row.head? = some first)
    (ends : row.getLast? = some last) {id : ChainId} (chain : ∀ h ∈ row, h.chain = id)
    (listed : row.Sublist s.code) : ∃ handles, s.Spanned first last handles ∧ row.Sublist handles := by
  have nonempty : row ≠ [] := by
    rintro rfl
    cases begins
  obtain ⟨owner, held, inside⟩ :=
    tidy.sound.sublist_entries tidy.distinct nonempty chain (listed.trans (codeOf_sublist _))
  obtain ⟨handles, part, begins', ends', within⟩ := exists_span inside nonempty
  have own : first.chain = id := chain first (List.mem_of_head? begins)
  exact ⟨handles, ⟨owner, own ▸ held, part, begins'.trans begins, ends'.trans ends⟩, within⟩

/-- The tokens of a range are in the stream of its first. -/
theorem Spanned.stored (spanned : s.Spanned first last handles) (sound : s.Sound) {h : Handle} (member : h ∈ handles) :
    h.chain = first.chain ∧ ∃ a, s.get? h = some a := by
  obtain ⟨owner, held, inside, begins, _⟩ := spanned
  have own : ∀ k ∈ handles, k.chain = owner.chain.id := fun k held' => by
    obtain ⟨entry, stored, rfl⟩ := List.mem_map.mp (inside.subset held')
    exact (sound.owner? held).chain.chain_eq stored
  have same : h.chain = first.chain := (own h member).trans (own first (List.mem_of_head? begins)).symm
  obtain ⟨entry, stored, rfl⟩ := List.mem_map.mp (inside.subset member)
  exact ⟨same, entry.2, (sound.get?_eq_some _ _).mpr ⟨owner, same ▸ held, stored⟩⟩

theorem Spanned.unique {handles' : List Handle} (spanned : s.Spanned first last handles)
    (spanned' : s.Spanned first last handles') (sound : s.Sound) : handles = handles' :=
  Except.ok.inj ((spanned.rangeHandles sound).symm.trans (spanned'.rangeHandles sound))

/-- A range is read before another one, or behind it. -/
def Beside (s : TokenStream) (first last first' last' : Handle) : Prop :=
  [last, first'].Sublist s.code ∨ [last', first].Sublist s.code

/-- Words before a part of the code, or behind it, are beside the ranges in that part. -/
theorem beside_of_around {front part back : List Handle} (listed : (front ++ (part ++ back)).Sublist s.code)
    (begins : first ∈ part) (ends : last ∈ part) {h : Handle} (outside : h ∈ front ++ back) :
    s.Beside first last h h := by
  rcases List.mem_append.mp outside with early | late
  · exact .inr ((pair_sublist early (List.mem_append_left back begins)).trans listed)
  · exact .inl (((pair_sublist ends late).trans (List.sublist_append_right front _)).trans listed)

/-- Two tokens of one stream stand in it in the order in which they are read. -/
theorem Tidy.read_before (tidy : s.Tidy) {k k' : Handle} (held : s.owner? k.chain = some owner)
    (same : k'.chain = k.chain) (read : [k, k'].Sublist s.code) : [k, k'].Sublist (owner.view.map (·.1)) := by
  obtain ⟨owner', held', within⟩ := tidy.sound.sublist_entries tidy.distinct (List.cons_ne_nil _ _)
    (show ∀ l ∈ [k, k'], l.chain = k.chain by simp [same]) (read.trans (codeOf_sublist _))
  obtain rfl : owner = owner' := Option.some.inj (held.symm.trans held')
  rwa [← handles_view]

theorem Tidy.not_mem_of_beside (tidy : s.Tidy) (spanned : s.Spanned first last handles) {h : Handle}
    (beside : s.Beside first last h h) : h ∉ handles := by
  intro member
  have same (k : Handle) (held : k ∈ handles) : k.chain = first.chain := (spanned.stored tidy.sound held).1
  obtain ⟨owner, held, inside, begins, ends⟩ := spanned
  rw [handles_view] at inside
  have order {k k' : Handle} (here : k ∈ handles) (there : k' ∈ handles) (read : [k, k'].Sublist s.code) :
      [k, k'].Sublist (owner.view.map (·.1)) :=
    tidy.read_before (by rw [same k here, held]) ((same k' there).trans (same k here).symm) read
  obtain ⟨front, back, split⟩ := List.append_of_mem (inside.subset member)
  have once := (tidy.sound.owner? held).handles_nodup
  rw [split] at once
  have absent := (List.nodup_middle.mp once).notMem
  rcases beside with early | late
  · have before := order (List.mem_of_getLast? ends) member early
    rw [split] at inside before
    exact absent (List.mem_append_left _ ((infix_before once inside ends before).subset member))
  · have behind := order member (List.mem_of_head? begins) late
    rw [split] at inside behind
    exact absent (List.mem_append_right _ ((infix_behind once inside begins behind).subset member))

/-- A range beside another one lies among the tokens before or behind that one. -/
theorem Tidy.beside (tidy : s.Tidy) {front middle back : List Piece} (split : s.view = front ++ (middle ++ back))
    (spans : Spans first' last' middle) (spanned : s.Spanned first last handles)
    (beside : s.Beside first last first' last') (top : first.chain = s.chain.id) : handles <:+: front.map (·.1) ∨
    handles <:+: back.map (·.1) := by
  have final : last.chain = s.chain.id := by
    have same := spanned
    obtain ⟨_, _, _, _, ends⟩ := same
    rw [(spanned.stored tidy.sound (List.mem_of_getLast? ends)).1, top]
  obtain ⟨owner, held, inside, begins, ends⟩ := spanned
  obtain rfl : s = owner := Option.some.inj ((owner?_top top).symm.trans held)
  have once := tidy.sound.handles_nodup
  have own : ∀ piece ∈ s.view, piece.1.chain = s.chain.id := fun piece => tidy.sound.chain_of_view
  have order {k k' : Handle} (here : k.chain = s.chain.id) (there : k'.chain = s.chain.id)
    (read : [k, k'].Sublist s.code) :
      [k, k'].Sublist (s.view.map (·.1)) := tidy.read_before (owner?_top here) (there.trans here.symm) read
  rw [handles_view] at inside
  rcases beside with early | late
  · obtain ⟨piece, rest, rfl, rfl⟩ := spans.first
    have parts : s.view.map (·.1) = front.map (·.1) ++ piece.1 :: (rest ++ back).map (·.1) := by simp [split]
    have before := order final (own piece (by simp [split])) early
    rw [parts] at once inside before
    exact .inl (infix_before once inside ends before)
  · obtain ⟨most, piece, rfl, rfl⟩ := spans.last
    have parts : s.view.map (·.1) = (front ++ most).map (·.1) ++ piece.1 :: back.map (·.1) := by simp [split]
    have behind := order (own piece (by simp [split])) top late
    rw [parts] at once inside behind
    exact .inr (infix_behind once inside begins behind)

end

/-- An alias leads to a token that is written by its own literal. -/
def Firm (s : TokenStream) (a : Token) : Prop :=
  ∀ target, a.literal.aliasTarget? = some target → ∃ b, s.get? target = some b ∧ Plain b

theorem StandsFor.of_firm {literal : Literal} (stands : s.StandsFor a.literal literal) (firm : s.Firm a) :
    literal.aliasTarget? = none ∧ s.textOf a = writtenAs a.kind literal.text := by
  refine ⟨stands.plain_last, ?_⟩
  cases stands with
  | plain own => exact textOf_plain s own
  | follow points found rest =>
    obtain ⟨b, stored, plain⟩ := firm _ points
    obtain rfl : b = _ := Option.some.inj (stored.symm.trans found)
    rw [rest.of_plain plain]
    exact textOf_alias s points stored plain

/-! ### Pieces that are put in -/

/-- Pieces were put between others. -/
structure Widened (s after : TokenStream) (ahead new behind : List Piece) : Prop where
  tidy : s.Tidy
  tidy' : after.Tidy
  own : after.chain.id = s.chain.id
  before : s.view = ahead ++ behind
  now : after.view = ahead ++ (new ++ behind)

namespace Widened

variable {ahead new behind : List Piece} (widened : Widened s after ahead new behind)
include widened

private theorem view_subset : s.view ⊆ after.view := by
  rw [widened.before, widened.now]
  exact List.append_subset.mpr ⟨List.subset_append_left _ _,
    List.subset_append_of_subset_right _ (List.subset_append_right _ _)⟩

theorem get? (stored : s.get? h = some a) : after.get? h = some a := by
  obtain ⟨piece, member, here⟩ := (widened.tidy.sound.get?_view widened.tidy.distinct).mp stored
  exact (widened.tidy'.sound.get?_view widened.tidy'.distinct).mpr
    ⟨piece, widened.view_subset member, widened.own ▸ here⟩

theorem get?_new {piece : Piece} (member : piece ∈ new) : after.get? piece.1 = some piece.2.1 :=
  (widened.tidy'.sound.get?_view widened.tidy'.distinct).mpr ⟨piece, by simp [widened.now, member], .inl ⟨rfl, rfl⟩⟩

theorem text (stored : s.get? h = some a) (firm : s.Firm a) : after.text h = s.text h := by
  rw [text_eq _ stored, text_eq _ (widened.get? stored)]
  cases points : a.literal.aliasTarget? with
  | none => rw [textOf_plain _ points, textOf_plain _ points]
  | some target =>
    obtain ⟨b, found, plain⟩ := firm target points
    rw [textOf_alias _ points found plain, textOf_alias _ points (widened.get? found) plain]

/-- A range stays a range unless it reaches over the place. -/
theorem spanned {first last : Handle} {handles : List Handle} (spanned : s.Spanned first last handles)
    (aside : first.chain = s.chain.id → handles <:+: ahead.map (·.1) ∨ handles <:+: behind.map (·.1)) :
    after.Spanned first last handles := by
  obtain ⟨owner, held, inside, ends⟩ := spanned
  by_cases top : first.chain = s.chain.id
  · refine ⟨after, owner?_top (top.trans widened.own.symm), ?_, ends⟩
    rw [handles_view, widened.now, List.map_append, List.map_append]
    rcases aside top with early | late
    · exact early.trans (List.prefix_append _ _).isInfix
    · exact late.trans ((List.suffix_append _ _).isInfix.trans (List.suffix_append _ _).isInfix)
  · obtain ⟨piece, member, below⟩ := (widened.tidy.sound.owner?_view widened.tidy.distinct top).mp held
    exact ⟨owner, (widened.tidy'.sound.owner?_view widened.tidy'.distinct (widened.own ▸ top)).mpr
      ⟨piece, widened.view_subset member, below⟩, inside, ends⟩

end Widened

/-! ### Pieces that are taken out -/

/-- Pieces were taken out from between others. -/
structure Narrowed (s after : TokenStream) (front middle back : List Piece) : Prop where
  tidy : s.Tidy
  tidy' : after.Tidy
  own : after.chain.id = s.chain.id
  before : s.view = front ++ (middle ++ back)
  now : List.Forall₂ (Stays s) (front ++ back) after.view

namespace Narrowed

variable {front middle back : List Piece} (narrowed : Narrowed s after front middle back)
include narrowed

/-- A piece that is still there was there before. -/
theorem piece {piece' : Piece} (member : piece' ∈ after.view) : ∃ piece ∈ s.view, Stays s piece piece' := by
  obtain ⟨piece, inside, stays⟩ := mem_of_forall₂ narrowed.now member
  refine ⟨piece, ?_, stays⟩
  rw [narrowed.before]
  rcases List.mem_append.mp inside with early | late
  · simp [early]
  · simp [late]

theorem get? (stored : after.get? h = some b) : ∃ a, s.get? h = some a ∧ Kept s h a b := by
  obtain ⟨piece', member, here⟩ := (narrowed.tidy'.sound.get?_view narrowed.tidy'.distinct).mp stored
  obtain ⟨piece, inside, named, kept, below⟩ := narrowed.piece member
  rcases here with ⟨rfl, rfl⟩ | ⟨_, sub', owned, found⟩
  · rw [named]
    exact ⟨piece.2.1, kept.1, kept⟩
  · obtain ⟨entry, _, rfl⟩ := List.mem_map.mp inside
    obtain ⟨entry', _, rfl⟩ := List.mem_map.mp member
    rw [owned] at below
    obtain ⟨sub, owns, alike⟩ := some_of_rel below
    have tokens := alike.get? (narrowed.tidy.sound.sub owns) (narrowed.tidy'.sound.sub owned) h
    rw [found] at tokens
    obtain ⟨a, _, kept⟩ := some_of_rel tokens
    exact ⟨a, kept.1, kept⟩

theorem owner? {id : ChainId} {owner' : TokenStream} (below : id ≠ s.chain.id) (held : after.owner? id = some owner') :
    ∃ owner, s.owner? id = some owner ∧ Alike (Kept s) owner owner' := by
  obtain ⟨piece', member, sub', owned, found⟩ :=
    (narrowed.tidy'.sound.owner?_view narrowed.tidy'.distinct (narrowed.own ▸ below)).mp held
  obtain ⟨piece, inside, _, _, alike⟩ := narrowed.piece member
  rw [owned] at alike
  obtain ⟨sub, owns, alike⟩ := some_of_rel alike
  have owners := alike.owner? id
  rw [found] at owners
  obtain ⟨owner, there, same⟩ := some_of_rel owners
  exact ⟨owner, (narrowed.tidy.sound.owner?_view narrowed.tidy.distinct below).mpr ⟨piece, inside, sub,
    owns, there⟩, same⟩

theorem text (stored : after.get? h = some b) {a : Token} (old : s.get? h = some a) (firm : s.Firm a)
    (alive : ∀ target, a.literal.aliasTarget? = some target →
    (after.get? target).isSome) : after.text h = s.text h := by
  obtain ⟨a', found, _, literal, rfl, origin⟩ := narrowed.get? stored
  obtain rfl : a = a' := Option.some.inj (old.symm.trans found)
  rw [text_eq _ stored, text_eq _ old]
  rcases origin with rfl | stands
  · cases points : a.literal.aliasTarget? with
    | none => rw [textOf_plain _ points, textOf_plain _ points]
    | some target =>
      obtain ⟨c, there, plain⟩ := firm target points
      obtain ⟨c', still⟩ := Option.isSome_iff_exists.mp (alive target points)
      obtain ⟨d, there', _, literal, rfl, origin⟩ := narrowed.get? still
      obtain rfl : c = d := Option.some.inj (there.symm.trans there')
      have same : literal = c.literal := origin.elim (fun same => same) fun stands => stands.of_plain plain
      rw [textOf_alias _ points there plain, textOf_alias _ points still (by rw [same]; exact plain), same]
  · obtain ⟨plain, text⟩ := stands.of_firm firm
    rw [text]
    exact textOf_plain _ plain

/-- A range stays a range unless it reaches over the place. -/
theorem spanned {first last : Handle} {handles : List Handle} (spanned : s.Spanned first last handles)
    (alive : (after.get? first).isSome)
    (aside : first.chain = s.chain.id → handles <:+: front.map (·.1) ∨ handles <:+: back.map (·.1)) :
    after.Spanned first last handles := by
  obtain ⟨owner, held, inside, ends⟩ := spanned
  by_cases top : first.chain = s.chain.id
  · refine ⟨after, owner?_top (top.trans narrowed.own.symm), ?_, ends⟩
    rw [handles_view, handles_of_stays narrowed.now, List.map_append]
    rcases aside top with early | late
    · exact early.trans (List.prefix_append _ _).isInfix
    · exact late.trans (List.suffix_append _ _).isInfix
  · obtain ⟨a, stored⟩ := Option.isSome_iff_exists.mp alive
    obtain ⟨owner', held', _⟩ := (narrowed.tidy'.sound.get?_eq_some _ _).mp stored
    obtain ⟨other, there, alike⟩ := narrowed.owner? top held'
    obtain rfl : owner = other := Option.some.inj (held.symm.trans there)
    refine ⟨owner', held', ?_, ends⟩
    rw [handles_view] at inside ⊢
    rw [handles_of_stays alike.stays]
    exact inside

end Narrowed

end TokenStream

end YaraRules

import YaraRules.Proofs.CodeOrder

/-! Rows of code that come from other streams. What is built or copied has a stream of
its own with nothing nested in it; its code is put in front of a token, at the end, or
in the place of a row, under the handles that the move reports. -/

namespace YaraRules.TokenStream

/-! ### Tokens that change in place -/

/-- Tokens may change in place as long as none becomes a line break. -/
def NoBreak (old new : TokenKind) : Prop := new = old ∨ new ≠ .newLine

private theorem SameSpots.code_sublist {spots others : List Spot} (same : SameSpots NoBreak spots others) :
    (codeOf spots).Sublist (codeOf others) := by
  induction same with
  | nil => exact .slnil
  | @cons old new _ _ one _ ih =>
    obtain ⟨h, kind, owned⟩ := old
    obtain ⟨h', kind', owned'⟩ := new
    obtain ⟨rfl, kept, rfl⟩ := one
    change (codeOf ([(h', kind, owned')] ++ _)).Sublist (codeOf ([(h', kind', owned')] ++ _))
    rw [codeOf_append, codeOf_append]
    refine List.Sublist.append ?_ ih
    rcases kept with rfl | word
    · exact List.Sublist.refl _
    · cases owned' with
      | true => simp [codeOf]
      | false => exact codeOf_one word ▸ codeOf_sublist [(h', kind, false)]

theorem SameSpots.bare {spots others : List Spot} (same : SameSpots NoBreak spots others)
    (bare : ∀ spot ∈ spots, spot.2.1 = .newLine → spot.2.2 = false) :
    ∀ spot ∈ others, spot.2.1 = .newLine → spot.2.2 = false := by
  induction same with
  | nil => simp
  | @cons old new _ _ one _ ih =>
    simp only [List.forall_mem_cons] at bare ⊢
    refine ⟨fun broken => ?_, ih bare.2⟩
    obtain ⟨_, kept, owned⟩ := one
    rcases kept with kept | word
    · exact owned.trans (bare.1 (kept.symm.trans broken))
    · exact absurd broken word

variable {s after source copy left : TokenStream}

/-- A change of a token that makes no line break of it leaves every row as it is. -/
theorem Tidy.modify (tidy : s.Tidy) (h : Handle) {f : Token → Token}
    (kept : ∀ token, NoBreak token.kind (f token).kind) (row : List Handle) : Rewrites s (s.modify h f) row row := by
  obtain ⟨sound, alike⟩ := tidy.sound.modify_touched h f
  have same : SameSpots NoBreak s.spots (s.modify h f).spots := by
    refine alike.spots ?_
    rintro other old new (rfl | ⟨_, _, rfl⟩)
    · exact .inl rfl
    · exact kept old
  refine ⟨⟨sound, alike.ids_eq ▸ tidy.distinct, same.bare tidy.bare⟩, fun front back listed => ?_, fun _ chain => chain⟩
  exact listed.trans same.code_sublist

theorem Tidy.setKind (tidy : s.Tidy) (h : Handle) {kind : TokenKind} (word : kind ≠ .newLine) (row : List Handle) :
    Rewrites s (s.setKind h kind) row row :=
  tidy.modify h (fun _ => .inr word) row

theorem Tidy.setLiteral (tidy : s.Tidy) (h : Handle) (literal : Literal) (row : List Handle) :
    Rewrites s (s.setLiteral h literal) row row :=
  tidy.modify h (f := fun token => { token with literal }) (fun _ => .inl rfl) row

/-! ### Moves -/

/-- A stream of its own with nothing nested in it. -/
structure Lone (s : TokenStream) : Prop where
  sound : s.Sound
  ids : s.ids = [s.chain.id]

theorem Lone.free (lone : s.Lone) {piece : Piece} (member : piece ∈ s.view) : piece.2.2 = none := by
  obtain ⟨entry, _, rfl⟩ := List.mem_map.mp member
  cases held : s.subAt? entry.1.index with
  | none => exact held
  | some sub =>
    obtain ⟨chain, nested⟩ := s
    have none : idsAmong nested = [] := (List.cons.inj lone.ids).2
    have inside := (ids_of_lookup held).subset sub.id_mem_ids
    simp [none] at inside

theorem Lone.tidy (lone : s.Lone) : s.Tidy := by
  refine ⟨lone.sound, by simp [lone.ids], fun spot member _ => ?_⟩
  rw [spots_eq] at member
  obtain ⟨piece, inside, listed⟩ := List.mem_flatMap.mp member
  have free := lone.free inside
  obtain rfl : spot = (piece.1, piece.2.1.kind, piece.2.2.isSome) := by simpa [spotsAt, free] using listed
  simp [free]

/-- A token is put at the end of a stream of its own. -/
theorem Lone.push (lone : s.Lone) (token : Token) :
    (s.push token).2.Lone ∧ (s.push token).2.chain.id = s.chain.id ∧ (s.push token).1.chain = s.chain.id ∧
      (s.push token).2.code = s.code ++ codeOf [((s.push token).1, token.kind, false)] := by
  obtain ⟨sound, _, id, ids⟩ := lone.sound.push token
  obtain ⟨_, chain, spots⟩ := lone.tidy.push token
  refine ⟨⟨sound, by rw [ids, lone.ids, id]⟩, id, chain, ?_⟩
  rw [code, spots, codeOf_append]
  rfl

/-- The piece came from another one of the same kind under a new handle. -/
def Arrived (f : Handle → Handle) (old new : Piece) : Prop :=
  new.1 = f old.1 ∧ new.2.1.kind = old.2.1.kind ∧ old.2.2 = none ∧ new.2.2 = none

private theorem codeOf_arrived {f : Handle → Handle} {old new : List Piece}
    (arrived : List.Forall₂ (Arrived f) old new) :
    codeOf (new.flatMap spotsAt) = (codeOf (old.flatMap spotsAt)).map f ∧
      (∀ spot ∈ new.flatMap spotsAt, spot.2.2 = false) ∧ (new.flatMap spotsAt).map (·.1) = new.map (·.1) := by
  induction arrived with
  | nil => simp
  | @cons piece piece' _ _ one _ ih =>
    obtain ⟨named, kind, none, none'⟩ := one
    have here : spotsAt piece = [(piece.1, piece.2.1.kind, false)] := by simp [spotsAt, none]
    have there : spotsAt piece' = [(f piece.1, piece.2.1.kind, false)] := by simp [spotsAt, none', named, kind]
    refine ⟨?_, ?_, ?_⟩
    · rw [List.flatMap_cons, List.flatMap_cons, codeOf_append, codeOf_append, List.map_append, ih.1, here, there]
      congr 1
      by_cases broken : piece.2.1.kind = .newLine <;> simp [codeOf, broken]
    · simp only [List.flatMap_cons, there, List.singleton_append, List.forall_mem_cons]
      exact ⟨trivial, ih.2.1⟩
    · simp [List.flatMap_cons, ih.2.2, there, named]

/-- Handles are reported for the pieces that were there. -/
theorem keys_renamed {names : Renaming} {old new : List Piece} (pairs : names.pairs = renamed old new)
    (lengths : old.length = new.length) : names.pairs.map (·.1) = old.map (·.1) := by
  rw [pairs, renamed, List.map_fst_zip (by simp [lengths])]

/-- The reported handles lead from each piece to the one that it became. -/
theorem apply_renamed {names : Renaming} {old new : List Piece} (pairs : names.pairs = renamed old new)
    (nodup : (old.map (·.1)).Nodup) (lengths : old.length = new.length) :
    List.Forall₂ (fun piece piece' => piece'.1 = names.apply piece.1) old new := by
  refine List.forall₂_iff_zip.mpr ⟨lengths, fun {piece piece'} member => ?_⟩
  have listed : (piece.1, piece'.1) ∈ names.pairs := by
    rw [pairs, renamed, List.zip_map]
    exact List.mem_map_of_mem (f := Prod.map (·.1) (·.1)) member
  obtain ⟨front, back, split⟩ := List.append_of_mem listed
  have found : names.pairs.lookup piece.1 = some piece'.1 := by
    refine List.lookup_eq_some_iff.mpr ⟨front, back, split, fun pair inside => ?_⟩
    rw [← keys_renamed pairs lengths, split, List.map_append, List.map_cons, List.nodup_middle] at nodup
    have apart : piece.1 ≠ pair.1 := fun same =>
      (List.nodup_cons.mp nodup).1 (List.mem_append_left _ (same ▸ List.mem_map_of_mem inside))
    simpa using apart
  simp [Renaming.apply, Renaming.get?, found]

theorem handles_renamed {names : Renaming} {old new : List Piece}
    (named : List.Forall₂ (fun piece piece' : Piece => piece'.1 = names.apply piece.1) old new) :
    new.map (·.1) = (old.map (·.1)).map names.apply := by
  induction named with
  | nil => rfl
  | cons one _ ih => simp only [List.map_cons, one, ih]

/-- A handle that was reported is the one that is applied. -/
theorem get?_renamed {names : Renaming} {h : Handle} (listed : h ∈ names.pairs.map (·.1)) :
    names.get? h = some (names.apply h) := by
  cases found : names.get? h with
  | some k => simp [Renaming.apply, found]
  | none =>
    obtain ⟨pair, member, rfl⟩ := List.mem_map.mp listed
    have absent := List.lookup_eq_none_iff.mp found pair member
    simp at absent

private theorem kind_redirect (names : Renaming) (token : Token) : (names.redirect token).kind = token.kind := by
  unfold Renaming.redirect
  split <;> rfl

theorem withNewline_eq (newline : Option String) (piece : Piece) :
    (withNewline newline piece).1 = piece.1 ∧ (withNewline newline piece).2.1.kind = piece.2.1.kind ∧
      (withNewline newline piece).2.2 = piece.2.2 := by
  unfold withNewline
  cases newline with
  | none => exact ⟨rfl, rfl, rfl⟩
  | some text => refine ⟨rfl, ?_, rfl⟩; dsimp only; split <;> rfl

/-- Every token of a stream of its own came over under the handle that is reported. -/
private theorem Lone.arrived (lone : source.Lone) {names : Renaming} {moved : List Piece}
    (pairs : names.pairs = renamed source.view moved)
    (carried : List.Forall₂ (Carried (source.adoptNewlines s) names)
      (source.view.map (withNewline s.firstNewline?)) moved) :
    List.Forall₂ (Arrived names.apply) source.view moved := by
  rw [List.forall₂_map_left_iff] at carried
  have named := apply_renamed pairs lone.sound.handles_nodup carried.length_eq
  rw [List.forall₂_iff_zip] at carried named ⊢
  refine ⟨carried.1, fun {piece piece'} member => ?_⟩
  have free := lone.free (List.of_mem_zip member).1
  obtain ⟨same, kind, sub⟩ := withNewline_eq s.firstNewline? piece
  obtain ⟨⟨settled, ⟨_, literal, rfl, _⟩, token⟩, owned⟩ := carried.2 member
  refine ⟨named.2 member, ?_, free, ?_⟩
  · rw [token, kind_redirect]
    exact kind
  · rw [sub, free] at owned
    cases held : piece'.2.2 with
    | none => rfl
    | some _ => simp [held] at owned

theorem view_ne_nil {row : List Handle} (nonempty : row ≠ []) (inside : row.Sublist s.code) : s.view ≠ [] := by
  intro empty
  rw [TokenStream.code, spots_eq, empty] at inside
  exact nonempty (List.sublist_nil.mp inside)

/-- All the code of the source is put in one place. -/
theorem Tidy.moveAll (tidy : s.Tidy) (lone : source.Lone) {before : Option Handle} {names : Renaming}
    (nonempty : source.view ≠ []) (done : s.moveAll before source = (.ok (names, after), left)) :
    after.Tidy ∧ ∃ ahead moved behind, s.spots = ahead ++ behind ∧ behind.head?.map (·.1) = before ∧
      after.spots = ahead ++ (moved ++ behind) ∧ codeOf moved = source.code.map names.apply ∧
      (∀ h ∈ source.code, (names.apply h).chain = s.chain.id) ∧ ∀ h, before = some h → h.chain = s.chain.id := by
  obtain ⟨sound, sound', id, id', total, moved, pairs, carried, empty, arrival⟩ :=
    tidy.sound.moveAll lone.sound (by simp [lone.ids]) done
  obtain ⟨ahead, behind, into, place, view⟩ : ∃ ahead behind, s.view = ahead ++ behind ∧
      behind.head?.map (·.1) = before ∧ after.view = ahead ++ (moved ++ behind) :=
    arrival.resolve_left fun nothing => nonempty nothing.1
  have arrived := lone.arrived pairs carried
  obtain ⟨code, free, handles⟩ := codeOf_arrived arrived
  have old : s.spots = ahead.flatMap spotsAt ++ behind.flatMap spotsAt := by
    rw [spots_eq, into, List.flatMap_append]
  have now : after.spots = ahead.flatMap spotsAt ++ (moved.flatMap spotsAt ++ behind.flatMap spotsAt) := by
    rw [spots_eq, view, List.flatMap_append, List.flatMap_append]
  have distinct : after.ids.Nodup := by
    refine List.nodup_iff_count_le_one.mpr fun other => ?_
    have once := List.nodup_iff_count_le_one.mp tidy.distinct other
    have sum := total other
    have kept : source.ids.count other ≤ left.ids.count other := by
      rw [lone.ids, ← id']
      cases left
      simp [TokenStream.ids, List.count_cons]
    omega
  refine ⟨.of_spots sound distinct tidy old now free, _, _, _, old, ?_, now, ?_, ?_, ?_⟩
  · cases behind with
    | nil => exact place
    | cons piece rest => exact place
  · rw [code, TokenStream.code, spots_eq]
  · intro h member
    have inside : names.apply h ∈ moved.map (·.1) := by
      rw [← handles]
      refine (codeOf_sublist _).subset ?_
      rw [code, ← spots_eq]
      exact List.mem_map_of_mem member
    obtain ⟨piece, listed, named⟩ := List.mem_map.mp inside
    rw [← named, sound.chain_of_view (show piece ∈ after.view by simp [view, listed]), id]
  · rintro h rfl
    obtain ⟨piece, first, rfl⟩ := Option.map_eq_some_iff.mp place
    exact tidy.sound.chain_of_view (by simp [into, List.mem_of_head? first])

/-- A row of the source goes right before a token. -/
theorem Tidy.moveBefore (tidy : s.Tidy) (lone : source.Lone) {before : Handle} {names : Renaming} {row : List Handle}
    (nonempty : row ≠ []) (inside : row.Sublist source.code)
    (done : s.moveAll (some before) source = (.ok (names, after), left)) :
    Rewrites s after [before] (row.map names.apply ++ [before]) := by
  obtain ⟨tidy', ahead, moved, behind, split, first, view, code, chain, own⟩ :=
    tidy.moveAll lone (view_ne_nil nonempty inside) done
  obtain ⟨spot, rest, rfl, rfl⟩ : ∃ spot rest, behind = spot :: rest ∧ spot.1 = before := by
    cases behind with
    | nil => cases first
    | cons spot rest => exact ⟨spot, rest, rfl, by simpa using first⟩
  refine ⟨tidy', fun front back listed => ?_, fun id same h member => ?_⟩
  · obtain ⟨one, _, left, right⟩ := tidy.around split (by simpa using listed)
    rw [TokenStream.code, view, codeOf_append, codeOf_append, codeOf_cons, one, code]
    refine left.append ?_
    rw [List.append_assoc]
    exact (inside.map _).append (List.Sublist.append_left right _)
  · have top : spot.1.chain = id := same spot.1 (by simp)
    rcases List.mem_append.mp member with moved | here
    · obtain ⟨old, listed, rfl⟩ := List.mem_map.mp moved
      rw [chain old (inside.subset listed), ← own spot.1 rfl, top]
    · exact List.mem_singleton.mp here ▸ top

theorem Tidy.moveToEnd (tidy : s.Tidy) (lone : source.Lone) {names : Renaming} {row : List Handle}
    (nonempty : row ≠ []) (inside : row.Sublist source.code)
    (done : s.moveAll none source = (.ok (names, after), left)) :
    after.Tidy ∧ (∀ front, front.Sublist s.code → (front ++ row.map names.apply).Sublist after.code) ∧
      ∀ h ∈ row.map names.apply, h.chain = s.chain.id := by
  obtain ⟨tidy', ahead, moved, behind, split, first, view, code, chain, _⟩ :=
    tidy.moveAll lone (view_ne_nil nonempty inside) done
  obtain rfl : behind = [] := by simpa using first
  refine ⟨tidy', fun front listed => ?_, fun h member => ?_⟩
  · rw [TokenStream.code, split, List.append_nil] at listed
    rw [TokenStream.code, view, List.append_nil, codeOf_append, code]
    exact listed.append (inside.map _)
  · obtain ⟨old, listed, rfl⟩ := List.mem_map.mp member
    exact chain old (inside.subset listed)

/-- What is exchanged comes first, and then the range is erased. -/
theorem exchange_steps {first last : Handle} {names : Renaming}
    (done : (s.exchange first last source).1 = .ok (names, after)) : ∃ joined left,
    s.moveAll (some first) source = (.ok (names, joined), left) ∧ joined.erase first last = .ok after := by
  unfold TokenStream.exchange at done
  cases found : s.rangeHandles first last with
  | error e => simp [found] at done
  | ok handles =>
    rcases run : s.moveAll (some first) source with ⟨result, left⟩
    cases result with
    | error e => simp [found, run] at done
    | ok pair =>
      obtain ⟨names', joined⟩ := pair
      cases erased : joined.erase first last with
      | error e => simp [found, run, erased, bind, Except.bind] at done
      | ok final =>
        obtain ⟨rfl, rfl⟩ : names' = names ∧ final = after := by
          simpa [found, run, erased, bind, Except.bind, pure, Except.pure] using done
        exact ⟨joined, left, rfl, erased⟩

theorem Tidy.exchange (tidy : s.Tidy) (lone : source.Lone) {first last : Handle} {names : Renaming}
    {old row : List Handle} (begins : old.head? = some first) (ends : old.getLast? = some last)
    (nonempty : row ≠ []) (inside : row.Sublist source.code)
    (done : (s.exchange first last source).1 = .ok (names, after)) : Rewrites s after old (row.map names.apply) := by
  obtain ⟨joined, left, run, erased⟩ := exchange_steps done
  obtain ⟨rest, rfl⟩ := List.head?_eq_some_iff.mp begins
  have moved := (tidy.moveBefore lone nonempty inside run).frame [] rest
  have gone := (moved.tidy.erase begins ends (.inl rfl) erased).frame (row.map names.apply) []
  simpa using moved.trans (by simpa using gone)

/-! ### Copies -/

private theorem sublist_between {α : Type} {front middle back row : List α} (once : (front ++ (middle ++ back)).Nodup)
    (listed : row.Sublist (front ++ (middle ++ back))) {first last : α} (begins : row.head? = some first)
    (ends : row.getLast? = some last) (begins' : middle.head? = some first) (ends' : middle.getLast? = some last) :
    row.Sublist middle := by
  have later : row.Sublist (middle ++ back) := by
    obtain ⟨rest, rfl⟩ := List.head?_eq_some_iff.mp begins
    obtain ⟨rest', rfl⟩ := List.head?_eq_some_iff.mp begins'
    have behind := (sublist_around once (show ([] ++ first :: rest).Sublist _ from listed)).2
    exact behind.cons_cons first
  obtain ⟨most, rfl⟩ := List.getLast?_eq_some_iff.mp ends
  obtain ⟨most', rfl⟩ := List.getLast?_eq_some_iff.mp ends'
  have once' := (List.nodup_append'.mp once).2.1
  rw [List.append_assoc, List.singleton_append] at later once'
  obtain ⟨ahead, _⟩ := sublist_around once' later
  exact ahead.append_right [last]

theorem copyRange_owner {s owner : TokenStream} {first last : Handle} (held : s.owner? first.chain = some owner)
    (id : ChainId) : s.copyRange id first last = owner.copyRange id first last := by
  have outer : s.chainOf? first.chain = some owner.chain := by simp [chainOf?, held]
  have inner : owner.chainOf? first.chain = some owner.chain := id_of_owner? held ▸ owner.chainOf?_self
  simp only [copyRange, range_eq, outer, inner]

private theorem codeOf_copied {f : Handle → Handle} {old new : List Piece}
    (copied : List.Forall₂ (fun piece piece' : Piece => piece'.1 = f piece.1 ∧ piece'.2.1.kind = piece.2.1.kind ∧
      piece'.2.2 = none) old new)
    {row : List Handle} (inside : row.Sublist (old.map (·.1)))
    (words : ∀ piece ∈ old, piece.1 ∈ row → piece.2.1.kind ≠ .newLine) :
    (row.map f).Sublist (codeOf (new.flatMap spotsAt)) := by
  induction copied generalizing row with
  | nil =>
    rw [List.sublist_nil.mp inside]
    exact .slnil
  | @cons piece piece' _ _ one _ ih =>
    obtain ⟨named, kind, none⟩ := one
    have here : spotsAt piece' = [(f piece.1, piece.2.1.kind, false)] := by simp [spotsAt, none, named, kind]
    rw [List.flatMap_cons, codeOf_append, here]
    simp only [List.forall_mem_cons] at words
    cases inside with
    | cons _ later => exact (ih later words.2).trans (List.sublist_append_right _ _)
    | @cons_cons rest _ _ later =>
      rw [codeOf_one (words.1 (by simp)), List.map_cons]
      exact (ih later fun other member listed => words.2 other member (by simp [listed])).cons_cons _

theorem Tidy.copyRange (tidy : s.Tidy) {row : List Handle} {first last : Handle} {id : ChainId} {names : Renaming}
    (begins : row.head? = some first) (ends : row.getLast? = some last) (chain : ∀ h ∈ row, h.chain = first.chain)
    (listed : row.Sublist s.code) (done : s.copyRange id first last = .ok (names, copy)) :
    copy.Lone ∧ (row.map names.apply).Sublist copy.code := by
  have nonempty : row ≠ [] := by
    rintro rfl
    cases begins
  have inside := listed.trans (codeOf_sublist _)
  obtain ⟨owner, held, within⟩ := tidy.sound.sublist_entries tidy.distinct nonempty chain inside
  have sound := tidy.sound.owner? held
  rw [copyRange_owner held] at done
  obtain ⟨sound', ids, own, front, middle, back, split, spans, pairs, contents⟩ :=
    sound.copyRange (id_of_owner? held).symm done
  have lengths : middle.length = copy.view.length := by simpa using (congrArg List.length contents).symm
  have once := sound.handles_nodup
  have handles : owner.entries.map (·.1) = front.map (·.1) ++ (middle.map (·.1) ++ back.map (·.1)) := by
    rw [← List.map_append, ← List.map_append, ← split, view, List.map_map]
    rfl
  rw [split, List.map_append, List.map_append] at once
  rw [handles] at within
  have between := sublist_between once within begins ends (by simpa using spans.1) (by simpa using spans.2)
  refine ⟨⟨sound', ids.trans (by rw [own])⟩, ?_⟩
  rw [code, spots_eq]
  refine codeOf_copied (f := names.apply) ?_ between fun piece member here => ?_
  · have named := apply_renamed pairs (List.nodup_append'.mp (List.nodup_append'.mp once).2.1).1 lengths
    have same : List.Forall₂ (fun piece piece' : Piece =>
        piece'.2 = (names.redirect piece.2.1, none)) middle copy.view := by
      have equal := List.forall₂_eq_eq_eq ▸ contents
      rw [List.forall₂_map_left_iff, List.forall₂_map_right_iff] at equal
      exact equal.flip
    rw [List.forall₂_iff_zip] at named same ⊢
    refine ⟨lengths, fun {piece piece'} member => ⟨named.2 member, ?_, ?_⟩⟩
    · rw [same.2 member]
      exact kind_redirect names piece.2.1
    · rw [same.2 member]
  · obtain ⟨kind, word, stored⟩ := mem_codeOf.mp (listed.subset here)
    obtain ⟨ahead, behind, parts, _⟩ := spots_modifyOwner tidy.sound held
    have inside : (piece.1, piece.2.1.kind, piece.2.2.isSome) ∈ s.spots := by
      rw [parts, spots_eq owner, split]
      simp only [List.mem_append, List.mem_flatMap]
      exact .inr (.inl ⟨piece, by simp [member], by simp [spotsAt]⟩)
    have same := List.inj_on_of_nodup_map tidy.nodup inside stored rfl
    exact fun broken => word ((congrArg (·.2.1) same).symm.trans broken)

/-! ### Streams that tokens are given -/

private theorem codeOf_directive (h : Handle) (kind : TokenKind) : codeOf [(h, kind, true)] = [] := by
  simp [codeOf]

/-- A token that is stored in a stream itself is given a stream. -/
theorem Sound.attach_ok (sound : s.Sound) (sub : TokenStream) {h : Handle} (stored : h ∈ s.entries.map (·.1)) :
    ∃ after, s.attach h sub = .ok after := by
  obtain ⟨entry, inside, rfl⟩ := List.mem_map.mp stored
  have named : s.chain.index? entry.1 = some entry.1.index :=
    (sound.chain.index?_eq_some _ _).mpr ⟨rfl, entry.2, inside⟩
  exact ⟨_, by rw [TokenStream.attach, checkedIndex, named]; rfl⟩

/-- The code of a stream stands where the token stood that the stream is given to. -/
theorem Tidy.attach (tidy : s.Tidy) {sub : TokenStream} (inner : sub.Tidy) (apart : s.ids.Disjoint sub.ids) {h : Handle}
    (own : h.chain = s.chain.id) {front back : List Handle} (listed : (front ++ h :: back).Sublist s.code) :
    ∃ after, s.attach h sub = .ok after ∧ after.Tidy ∧ after.chain.id = s.chain.id ∧
      (∀ id ∈ after.ids, id ∈ s.ids ∨ id ∈ sub.ids) ∧
      ∀ middle : List Handle, middle.Sublist sub.code → (front ++ (middle ++ back)).Sublist after.code := by
  have read : h ∈ s.spots.map (·.1) := (codeOf_sublist _).subset (listed.subset (by simp))
  obtain ⟨owner, held, stored⟩ := tidy.sound.owner?_of_spots tidy.distinct read
  have itself : s.owner? s.chain.id = some s := by
    cases s
    simp [owner?]
  obtain rfl : s = owner := Option.some.inj (itself.symm.trans (own ▸ held))
  obtain ⟨after, done⟩ := tidy.sound.attach_ok sub stored
  obtain ⟨sound, counted, id, ahead, token, old, behind, view, view'⟩ := tidy.sound.attach inner.sound done
  have split : s.spots = ahead.flatMap spotsAt ++
      (h, token.kind, old.isSome) :: ((old.map spots).getD [] ++ behind.flatMap spotsAt) := by
    simp [spots_eq s, view, spotsAt]
  obtain ⟨one, free, left, right⟩ := tidy.around split listed
  obtain rfl : old = none := by simpa using free
  have now : after.spots = ahead.flatMap spotsAt ++
      ([(h, token.kind, true)] ++ (sub.spots ++ behind.flatMap spotsAt)) := by
    simp [spots_eq after, view', spotsAt]
  refine ⟨after, done, ⟨sound, ?_, fun spot member broken => ?_⟩, id, fun id member => ?_, fun middle inside => ?_⟩
  · refine List.nodup_iff_count_le_one.mpr fun id => Nat.le_trans (counted id) ?_
    by_cases here : id ∈ s.ids
    · rw [List.count_eq_zero_of_not_mem fun there => apart here there]
      exact List.nodup_iff_count_le_one.mp tidy.distinct id
    · rw [List.count_eq_zero_of_not_mem here, Nat.zero_add]
      exact List.nodup_iff_count_le_one.mp inner.distinct id
  · rw [now] at member
    simp only [List.mem_append, List.mem_singleton] at member
    rcases member with early | rfl | below | late
    · exact tidy.bare spot (by simp [split, early]) broken
    · simp [codeOf, show token.kind = .newLine from broken] at one
    · exact inner.bare spot below broken
    · exact tidy.bare spot (by simp [split, late]) broken
  · have some : 0 < s.ids.count id + sub.ids.count id := Nat.lt_of_lt_of_le (List.count_pos_iff.mpr member) (counted id)
    rcases Nat.add_pos_iff_pos_or_pos.mp some with here | below
    · exact .inl (List.count_pos_iff.mp here)
    · exact .inr (List.count_pos_iff.mp below)
  · rw [code, now, codeOf_append, codeOf_append, codeOf_append, codeOf_directive]
    exact left.append (inside.append (by simpa using right))

end YaraRules.TokenStream

import YaraRules.Proofs.StreamRanges

/-! Moves between two streams, copies and exchanges. Every result names the pieces
before and behind the place where something happens, and says that these stay;
the pieces that arrive are the old ones in their order, under new handles. -/

namespace YaraRules.TokenStream

private theorem Sound.receive {target : TokenStream} (sound : target.Sound) {ahead behind : List Piece}
    (into : target.view = ahead ++ behind) {token : Token} {new : Handle} {chain : Chain Token}
    (placed : target.chain.insertAt (frontOf behind) token = (new, chain)) {place : Option (Option TokenStream)}
    {nested : List (Nat × Option TokenStream)} (listed : nested = match place with
      | some sub => target.nested ++ [(new.index, sub)]
      | none => target.nested)
    (owned : place.isSome → place.join.isSome) (sub : ∀ held, place.join = some held → held.Sound) :
    (⟨chain, nested⟩ : TokenStream).Sound ∧
      (⟨chain, nested⟩ : TokenStream).view = (ahead ++ [(new, token, place.join)]) ++ behind ∧
      chain.id = target.chain.id ∧
      ∀ id, (⟨chain, nested⟩ : TokenStream).ids.count id = target.ids.count id + (idsOf place.join).count id := by
  subst listed
  obtain ⟨sound', view, id, fresh⟩ := sound.insert into placed
  have ids := target.ids_withChain id
  cases place with
  | none => exact ⟨sound', by simpa using view, id, fun other => by simp [ids, idsOf]⟩
  | some held =>
    obtain ⟨stream, rfl⟩ := Option.isSome_iff_exists.mp (owned rfl)
    have occupied : new.index ∈ chain.entries.map Chain.slotOf := by
      have member : (new, token, none) ∈ (⟨chain, target.nested⟩ : TokenStream).view := by simp [view]
      obtain ⟨entry, inside, same⟩ := List.mem_map.mp member
      exact List.mem_map.mpr ⟨entry, inside, congrArg (·.1.index) same⟩
    have unowned : new.index ∉ target.nested.map (·.1) := fun member => fresh (sound.placed member)
    obtain ⟨after, view', ids'⟩ := sound'.own occupied unowned (sub stream rfl)
    refine ⟨after, ?_, id, fun other => ?_⟩
    · exact (view'.trans (sound'.view_at view _)).trans (by simp)
    · rw [ids', ids, List.count_append]
      rfl

/-- The new handles of pieces that were moved or copied. -/
def renamed (old new : List Piece) : List (Handle × Handle) := (old.map (·.1)).zip (new.map (·.1))

private theorem foldl_moveOne {target source : TokenStream} (sound : target.Sound) (sound' : source.Sound)
    {ahead behind front middle back : List Piece} (into : target.view = ahead ++ behind)
    (outof : source.view = front ++ (middle ++ back)) (pairs : List (Handle × Handle)) :
    ∃ moved target' source', (middle.map (·.1)).foldl (moveOne (frontOf behind)) (target, source, pairs) =
        (target', source', pairs ++ renamed middle moved) ∧
      target'.Sound ∧ source'.Sound ∧ target'.view = ahead ++ (moved ++ behind) ∧ source'.view = front ++ back ∧
      moved.map (·.2) = middle.map (·.2) ∧ target'.chain.id = target.chain.id ∧ source'.chain.id = source.chain.id ∧
      ∀ id, target'.ids.count id + source'.ids.count id = target.ids.count id + source.ids.count id := by
  induction middle generalizing target source ahead pairs with
  | nil =>
    exact ⟨[], target, source, by simp [renamed], sound, sound', into, outof, rfl, rfl, rfl, fun _ => rfl⟩
  | cons piece rest ih =>
    obtain ⟨h, token, sub⟩ := piece
    obtain ⟨place, left, taken, rfl, owned, sound₁', outof₁, id₁', counted⟩ := sound'.take outof
    rcases placed : target.chain.insertAt (frontOf behind) token with ⟨new, chain⟩
    have held : ∀ stream, place.join = some stream → stream.Sound := by
      intro stream found
      have member : (h, token, place.join) ∈ source.view := by simp [outof]
      obtain ⟨entry, _, same⟩ := List.mem_map.mp member
      exact sound'.sub ((congrArg (·.2.2) same).trans found)
    obtain ⟨sound₁, into₁, id₁, received⟩ := sound.receive into placed rfl owned held
    obtain ⟨moved, target', source', run, after, after', view, view', same, id, id', total⟩ :=
      ih sound₁ sound₁' into₁ outof₁ (pairs ++ [(h, new)])
    refine ⟨(new, token, place.join) :: moved, target', source', ?_, after, after', ?_, view', ?_, id.trans id₁,
      id'.trans id₁', fun other => ?_⟩
    · simp only [List.map_cons, List.foldl_cons, moveOne, taken, placed]
      exact run.trans (by simp [renamed])
    · simpa using view
    · simp [same]
    · have one := total other
      have two := received other
      have three := counted other
      omega

/-- A token whose alias leads to a renamed token follows it. -/
def Renaming.redirect (r : Renaming) (token : Token) : Token :=
  match token.literal.aliasTarget?.bind r.get? with
  | some new => { token with literal := .ofAlias new }
  | none => token

def Renaming.redirectPiece (r : Renaming) (piece : Piece) : Piece := (piece.1, r.redirect piece.2.1, piece.2.2)

theorem Sound.get?_self {s : TokenStream} (sound : s.Sound) {h : Handle} {token : Token}
    {sub : Option TokenStream} (member : (h, token, sub) ∈ s.view) : s.get? h = some token := by
  obtain ⟨entry, inside, same⟩ := List.mem_map.mp member
  obtain ⟨rfl, rfl, _⟩ : entry.1 = h ∧ entry.2 = token ∧ _ := by simpa [piece] using same
  rw [TokenStream.get?, sound.chain.chain_eq inside, owner?_self]
  exact (sound.chain.get?_eq_some _ _).mpr inside

theorem Sound.renameAlias {s : TokenStream} (sound : s.Sound) (r : Renaming) {h : Handle}
    (own : h.chain = s.chain.id) :
    (s.renameAlias r h).Sound ∧ (s.renameAlias r h).ids = s.ids ∧ (s.renameAlias r h).chain.id = s.chain.id ∧
      (s.renameAlias r h).view = s.view.map fun piece => if piece.1 = h then r.redirectPiece piece else piece := by
  -- Either redirecting the token changes nothing, or its literal is replaced.
  have idle : (∀ token, s.get? h = some token → r.redirect token = token) →
      s.view = s.view.map fun piece => if piece.1 = h then r.redirectPiece piece else piece := by
    intro fixed
    refine (List.map_id s.view).symm.trans (List.map_congr_left fun piece member => ?_)
    obtain ⟨other, token, sub⟩ := piece
    by_cases same : other = h
    · subst same
      simp [Renaming.redirectPiece, fixed token (sound.get?_self member)]
    · simp [same]
  cases found : (s.get? h).bind (·.literal.aliasTarget?) with
  | none =>
    have same : s.renameAlias r h = s := by simp [TokenStream.renameAlias, found]
    rw [same]
    refine ⟨sound, rfl, rfl, idle fun token stored => ?_⟩
    have points : token.literal.aliasTarget? = none := by simpa [stored] using found
    simp [Renaming.redirect, points]
  | some target =>
    obtain ⟨token, stored, points⟩ := Option.bind_eq_some_iff.mp found
    cases renamed : r.get? target with
    | none =>
      have same : s.renameAlias r h = s := by simp [TokenStream.renameAlias, found, renamed]
      rw [same]
      refine ⟨sound, rfl, rfl, idle fun other stored' => ?_⟩
      obtain rfl : token = other := Option.some.inj (stored.symm.trans stored')
      simp [Renaming.redirect, points, renamed]
    | some new =>
      have same : s.renameAlias r h = s.setLiteral h (.ofAlias new) := by
        simp [TokenStream.renameAlias, found, renamed]
      rw [same]
      refine ⟨sound.modify h _, sound.ids_modify h _, s.id_modify h _, ?_⟩
      refine (sound.view_modify own _).trans (List.map_congr_left fun piece member => ?_)
      obtain ⟨other, token', sub⟩ := piece
      by_cases same : other = h
      · subst same
        obtain rfl : token = token' := Option.some.inj (stored.symm.trans (sound.get?_self member))
        simp [Renaming.redirectPiece, Renaming.redirect, points, renamed]
      · simp [same]

private theorem Sound.foldl_renameAlias {s : TokenStream} (sound : s.Sound) (r : Renaming) {handles : List Handle}
    (nodup : handles.Nodup) (own : ∀ h ∈ handles, h.chain = s.chain.id) :
    (handles.foldl (TokenStream.renameAlias r) s).Sound ∧ (handles.foldl (TokenStream.renameAlias r) s).ids = s.ids ∧
      (handles.foldl (TokenStream.renameAlias r) s).chain.id = s.chain.id ∧
      (handles.foldl (TokenStream.renameAlias r) s).view =
        s.view.map fun piece => if piece.1 ∈ handles then r.redirectPiece piece else piece := by
  induction handles generalizing s with
  | nil => simp [sound]
  | cons h rest ih =>
    obtain ⟨absent, distinct⟩ := List.nodup_cons.mp nodup
    obtain ⟨sound', ids, id, view⟩ := sound.renameAlias r (own h (by simp))
    obtain ⟨after, ids', id', view'⟩ :=
      ih sound' distinct (fun other member => by rw [id]; exact own other (by simp [member]))
    refine ⟨after, ids'.trans ids, id'.trans id, ?_⟩
    rw [List.foldl_cons, view', view, List.map_map]
    refine List.map_congr_left fun piece _ => ?_
    by_cases same : piece.1 = h
    · simp [same, Renaming.redirectPiece, absent]
    · simp [same]

theorem Sound.handles_nodup {s : TokenStream} (sound : s.Sound) : (s.view.map (·.1)).Nodup := by
  rw [view, List.map_map]
  exact sound.chain.handles_nodup

theorem Sound.chain_of_view {s : TokenStream} (sound : s.Sound) {piece : Piece} (member : piece ∈ s.view) :
    piece.1.chain = s.chain.id := by
  obtain ⟨entry, inside, rfl⟩ := List.mem_map.mp member
  exact sound.chain.chain_eq inside

/-- A handle that is accepted names a piece of the stream. -/
theorem Sound.split_at {s : TokenStream} (sound : s.Sound) {h : Handle} {index : Nat}
    (found : s.checkedIndex h = .ok index) :
    ∃ front token sub back, s.view = front ++ (h, token, sub) :: back ∧ index = h.index := by
  unfold checkedIndex at found
  cases named : s.chain.index? h with
  | none => simp [named] at found
  | some slot =>
    obtain ⟨rfl, token, member⟩ := (sound.chain.index?_eq_some h slot).mp named
    obtain ⟨front, back, split⟩ := List.append_of_mem member
    refine ⟨front.map s.piece, token, s.subAt? h.index, back.map s.piece, ?_, ?_⟩
    · rw [view, entries_eq, split, List.map_append, List.map_cons]
      rfl
    · simpa [named] using found.symm

theorem Sound.checkedPosition {s : TokenStream} (sound : s.Sound) {before : Option Handle} {position : Option Nat}
    (found : s.checkedPosition before = .ok position) :
    ∃ ahead behind, s.view = ahead ++ behind ∧ behind.head?.map (·.1) = before ∧ frontOf behind = position := by
  cases before with
  | none =>
    cases found
    exact ⟨s.view, [], by simp, rfl, rfl⟩
  | some h =>
    unfold TokenStream.checkedPosition at found
    cases checked : s.checkedIndex h with
    | error e => simp [checked, bind, Except.bind] at found
    | ok index =>
      obtain ⟨front, token, sub, back, split, rfl⟩ := sound.split_at checked
      refine ⟨front, (h, token, sub) :: back, split, rfl, ?_⟩
      simpa [checked, bind, Except.bind, pure, Except.pure, frontOf] using found

/-- A piece that went to another stream: an alias that led out of the moved pieces
became a copy, one that leads to another of them follows it. -/
def Carried (source : TokenStream) (names : Renaming) (old new : Piece) : Prop :=
  (∃ settled, Kept source old.1 old.2.1 settled ∧ new.2.1 = names.redirect settled) ∧
    Option.Rel (Alike (Kept source)) old.2.2 new.2.2

/-- The pieces from `first` to `last` went from `source` to right before `before`, in
their order; all pieces of `target` are as they were, and those left in `source` stayed. -/
def MovedInto (target : TokenStream) (before : Option Handle) (source : TokenStream) (first last : Handle)
    (names : Renaming) (target' source' : TokenStream) : Prop :=
  ∃ ahead behind front middle back moved,
    target.view = ahead ++ behind ∧ behind.head?.map (·.1) = before ∧
      source.view = front ++ (middle ++ back) ∧ Spans first last middle ∧
      target'.view = ahead ++ (moved ++ behind) ∧ List.Forall₂ (Carried source names) middle moved ∧
      names.pairs = renamed middle moved ∧ List.Forall₂ (Stays source) (front ++ back) source'.view

private theorem fst_renamed {old new : List Piece} (same : new.map (·.2) = old.map (·.2)) :
    (renamed old new).map (·.2) = new.map (·.1) := by
  have lengths : new.length = old.length := by simpa using congrArg List.length same
  exact List.map_snd_zip (by simp [lengths])

private theorem Sound.redirect_part {s : TokenStream} (sound : s.Sound) (r : Renaming) {ahead moved behind : List Piece}
    (split : s.view = ahead ++ (moved ++ behind)) :
    (s.view.map fun piece => if piece.1 ∈ moved.map (·.1) then r.redirectPiece piece else piece) =
      ahead ++ (moved.map r.redirectPiece ++ behind) := by
  have nodup := sound.handles_nodup
  rw [split, List.map_append, List.map_append] at nodup
  obtain ⟨_, rest, apart⟩ := List.nodup_append'.mp nodup
  obtain ⟨_, _, apart'⟩ := List.nodup_append'.mp rest
  have before : ∀ piece ∈ ahead, piece.1 ∉ moved.map (·.1) := fun piece member inside =>
    apart (List.mem_map_of_mem member) (List.mem_append_left _ inside)
  have after : ∀ piece ∈ behind, piece.1 ∉ moved.map (·.1) := fun piece member inside =>
    apart' inside (List.mem_map_of_mem member)
  have still : ∀ part : List Piece, (∀ piece ∈ part, piece.1 ∉ moved.map (·.1)) →
      (part.map fun piece => if piece.1 ∈ moved.map (·.1) then r.redirectPiece piece else piece) = part := by
    intro part outside
    exact (List.map_congr_left fun piece member => if_neg (outside piece member)).trans (List.map_id part)
  rw [split, List.map_append, List.map_append, still ahead before, still behind after]
  congr 2
  exact List.map_congr_left fun piece member => if_pos (List.mem_map_of_mem member)

private theorem carried_of_stays {s : TokenStream} (r : Renaming) {old settled new : List Piece}
    (stays : List.Forall₂ (Stays s) old settled) (same : new.map (·.2) = settled.map (·.2)) :
    List.Forall₂ (Carried s r) old (new.map r.redirectPiece) := by
  induction stays generalizing new with
  | nil =>
    cases new with
    | nil => exact .nil
    | cons _ _ => cases same
  | @cons piece kept _ _ one _ ih =>
    cases new with
    | nil => cases same
    | cons arrived rest =>
      obtain ⟨equal, more⟩ := List.cons.inj same
      refine .cons ⟨⟨kept.2.1, one.2.1, ?_⟩, ?_⟩ (ih more)
      · exact congrArg (fun content => r.redirect content.1) equal
      · have sub : arrived.2.2 = kept.2.2 := congrArg (·.2) equal
        exact sub ▸ one.2.2

/-- The stream once no alias crosses the border of the tokens: each that did is a copy. -/
def calmed (s : TokenStream) (handles : List Handle) : TokenStream :=
  (handles.foldl (settleAlias handles) s).detachAliases handles

theorem Sound.settled_calmed {s : TokenStream} (sound : s.Sound) (distinct : s.ids.Nodup)
    (handles : List Handle) : Settled s (s.calmed handles) :=
  ((Settled.refl sound distinct).foldl_settleAlias sound handles handles).detachAliases sound distinct handles

/-- A move that succeeds has found its place and its range, and takes the tokens of the range one by one once no
alias crosses its border. -/
theorem moveRange_done {target source target' source' : TokenStream} {before : Option Handle} {first last : Handle}
    {names : Renaming} (done : target.moveRange before source first last = (.ok (names, target'), source')) :
    ∃ position handles received, target.checkedPosition before = .ok position ∧
      source.rangeHandles first last = .ok handles ∧
      handles.foldl (moveOne position) (target, source.calmed handles, []) = (received, source', names.pairs) ∧
      target' = (names.pairs.map (·.2)).foldl (renameAlias names) received := by
  unfold TokenStream.moveRange at done
  cases checked : target.checkedPosition before with
  | error e => simp [checked] at done
  | ok position =>
  cases found : source.rangeHandles first last with
  | error e => simp [checked, found] at done
  | ok handles =>
    simp only [checked, found] at done
    rw [← calmed] at done
    rcases run : handles.foldl (moveOne position) (target, source.calmed handles, []) with ⟨received, remains, pairs⟩
    rw [run] at done
    obtain ⟨⟨rfl, rfl⟩, rfl⟩ : ((⟨pairs⟩ : Renaming) = names ∧
        (pairs.map (·.2)).foldl (renameAlias ⟨pairs⟩) received = target') ∧ remains = source' := by simpa using done
    exact ⟨position, handles, received, rfl, rfl, run, rfl⟩

/-- Once no alias crosses the border of a range, its pieces go over as they are, and aliases among them are
redirected. -/
structure Handed (target : TokenStream) (before : Option Handle) (calm : TokenStream) (first last : Handle)
    (names : Renaming)
    (target' source' : TokenStream) (ahead behind front middle back moved : List Piece) : Prop where
  into : target.view = ahead ++ behind
  place : behind.head?.map (·.1) = before
  split : calm.view = front ++ (middle ++ back)
  spans : Spans first last middle
  contents : moved.map (·.2) = middle.map (·.2)
  pairs : names.pairs = renamed middle moved
  now : target'.view = ahead ++ (moved.map names.redirectPiece ++ behind)
  left : source'.view = front ++ back

private theorem spans_of_handles {first last : Handle} {pieces others : List Piece}
    (same : others.map (·.1) = pieces.map (·.1)) (spans : Spans first last pieces) : Spans first last others := by
  have named := congrArg List.head? same
  have final := congrArg List.getLast? same
  simp only [List.head?_map, List.getLast?_map] at named final
  exact ⟨named.trans spans.1, final.trans spans.2⟩

theorem Sound.moveRange_handed {target source target' source' : TokenStream} (sound : target.Sound)
    (sound' : source.Sound)
    (distinct : source.ids.Nodup) {before : Option Handle} {first last : Handle} {names : Renaming}
    (own : first.chain = source.chain.id)
    (done : target.moveRange before source first last = (.ok (names, target'), source')) :
    target'.Sound ∧ source'.Sound ∧ target'.chain.id = target.chain.id ∧ source'.chain.id = source.chain.id ∧
      (∀ id, target'.ids.count id + source'.ids.count id = target.ids.count id + source.ids.count id) ∧
      ∃ handles, source.rangeHandles first last = .ok handles ∧ ∃ ahead behind front middle back moved,
        handles = middle.map (·.1) ∧
          Handed target before
          (source.calmed handles) first last names target' source' ahead behind front middle back moved := by
  obtain ⟨pairs⟩ := names
  obtain ⟨position, handles, passed, checked, found, ran, whole⟩ := moveRange_done done
  obtain ⟨ahead, behind, into, place, rfl⟩ := sound.checkedPosition checked
  obtain ⟨front, middle, back, split, rfl, spans⟩ := sound'.rangeHandles own found
  -- First the aliases that cross the border of the range become copies.
  have settled := sound'.settled_calmed distinct (middle.map (·.1))
  have id : (source.calmed (middle.map (·.1))).chain.id = source.chain.id := settled.alike.id_eq
  have stays := settled.stays
  rw [split] at stays
  obtain ⟨front', rest, split', left, others⟩ := forall₂_parts stays
  obtain ⟨middle', back', rfl, gone, right⟩ := forall₂_parts others
  have handles := handles_of_stays gone
  -- Then the tokens go over one by one, and aliases among them are redirected.
  obtain ⟨moved, received, remains, run, sound₁, sound₁', view, view', same, id₁, id₁', total⟩ :=
    foldl_moveOne sound settled.sound into split' []
  rw [List.nil_append, handles] at run
  obtain ⟨rfl, rfl, rfl⟩ : received = passed ∧ remains = source' ∧ renamed middle' moved = pairs := by
    simpa using run.symm.trans ran
  rw [fst_renamed same] at whole
  subst whole
  have nodup : (moved.map (·.1)).Nodup := by
    have each := sound₁.handles_nodup
    rw [view, List.map_append, List.map_append] at each
    exact (List.nodup_append'.mp (List.nodup_append'.mp each).2.1).1
  have inside : ∀ h ∈ moved.map (·.1), h.chain = received.chain.id := by
    intro h member
    obtain ⟨piece, listed, rfl⟩ := List.mem_map.mp member
    exact sound₁.chain_of_view (by simp [view, listed])
  obtain ⟨sound₂, ids₂, id₂, view₂⟩ := sound₁.foldl_renameAlias ⟨renamed middle' moved⟩ nodup inside
  rw [sound₁.redirect_part _ view] at view₂
  have spans' : Spans first last middle' := spans_of_handles handles spans
  refine ⟨sound₂, sound₁', id₂.trans id₁, id₁'.trans id, fun other => ?_, _, found, ahead, behind, front', middle',
    back', moved, handles.symm, into, place, split', spans', same, rfl, view₂, view'⟩
  rw [ids₂, total other, settled.alike.ids_eq]

theorem Sound.moveRange {target source target' source' : TokenStream} (sound : target.Sound) (sound' : source.Sound)
    (distinct : source.ids.Nodup) {before : Option Handle} {first last : Handle} {names : Renaming}
    (own : first.chain = source.chain.id)
    (done : target.moveRange before source first last = (.ok (names, target'), source')) :
    target'.Sound ∧ source'.Sound ∧ target'.chain.id = target.chain.id ∧ source'.chain.id = source.chain.id ∧
      (∀ id, target'.ids.count id + source'.ids.count id = target.ids.count id + source.ids.count id) ∧
      MovedInto target before source first last names target' source' := by
  obtain ⟨after, after', id, id', total, handles, ranged, ahead, behind, front', middle', back', moved,
    named, handed⟩ :=
    sound.moveRange_handed sound' distinct own done
  obtain ⟨front, middle, back, split, _, spans⟩ := sound'.rangeHandles own ranged
  have settled := sound'.settled_calmed distinct handles
  have stays := settled.stays
  rw [split] at stays
  obtain ⟨calmFront, rest, whole, left, others⟩ := forall₂_parts stays
  obtain ⟨calmMiddle, calmBack, rfl, gone, right⟩ := forall₂_parts others
  -- The range in the settled stream is where it was.
  have nodup := settled.sound.handles_nodup
  rw [handed.split] at nodup
  have same : Spans first last calmMiddle := spans_of_handles (handles_of_stays gone) spans
  obtain ⟨rfl, rfl, rfl⟩ := spans_unique nodup (handed.split.symm.trans whole) handed.spans same
  refine ⟨after, after', id, id', total, ahead, behind, front, middle, back, _, handed.into, handed.place, split, spans,
    handed.now, carried_of_stays _ gone handed.contents, ?_, handed.left ▸ List.rel_append left right⟩
  rw [handed.pairs, renamed, renamed, handles_of_stays gone]
  simp [Renaming.redirectPiece, Function.comp_def]

/-- A line break written as those of the stream that it comes to. -/
def withNewline (newline : Option String) (piece : Piece) : Piece :=
  match newline with
  | some text =>
    (piece.1, if piece.2.1.kind == .newLine then { piece.2.1 with literal := .ofWritten text } else piece.2.1,
      piece.2.2)
  | none => piece

theorem Sound.adoptNewlines {source : TokenStream} (sound : source.Sound) (target : TokenStream) :
    (source.adoptNewlines target).Sound ∧ (source.adoptNewlines target).ids = source.ids ∧
      (source.adoptNewlines target).chain.id = source.chain.id ∧
      (source.adoptNewlines target).view = source.view.map (withNewline target.firstNewline?) := by
  unfold TokenStream.adoptNewlines
  cases target.firstNewline? with
  | none => exact ⟨sound, rfl, rfl, (List.map_id _).symm⟩
  | some text =>
    obtain ⟨after, ids, view⟩ := sound.setNewlines text
    exact ⟨after, ids, rfl, view⟩

/-- Every piece of `source` went to right before `before`; nothing happens without any. -/
def MovedAll (target : TokenStream) (before : Option Handle) (source : TokenStream) (names : Renaming)
    (target' source' : TokenStream) : Prop :=
  ∃ moved, names.pairs = renamed source.view moved ∧
    List.Forall₂ (Carried (source.adoptNewlines target) names)
      (source.view.map (withNewline target.firstNewline?)) moved ∧ source'.view = [] ∧
    (source.view = [] ∧ target' = target ∨
      ∃ ahead behind, target.view = ahead ++ behind ∧ behind.head?.map (·.1) = before ∧
        target'.view = ahead ++ (moved ++ behind))

theorem Sound.ends {s : TokenStream} (sound : s.Sound) :
    s.first? = s.view.head?.map (·.1) ∧ s.last? = s.view.getLast?.map (·.1) := by
  constructor
  · rw [TokenStream.first?, sound.chain.first?_eq, view, List.head?_map, Option.map_map]
    rfl
  · rw [TokenStream.last?, sound.chain.last?_eq, view, List.getLast?_map, Option.map_map]
    rfl

theorem Sound.moveAll {target source target' source' : TokenStream} (sound : target.Sound) (sound' : source.Sound)
    (distinct : source.ids.Nodup) {before : Option Handle} {names : Renaming}
    (done : target.moveAll before source = (.ok (names, target'), source')) :
    target'.Sound ∧ source'.Sound ∧ target'.chain.id = target.chain.id ∧ source'.chain.id = source.chain.id ∧
      (∀ id, target'.ids.count id + source'.ids.count id = target.ids.count id + source.ids.count id) ∧
      MovedAll target before source names target' source' := by
  obtain ⟨adopted, ids, id, view⟩ := sound'.adoptNewlines target
  have handles : ∀ pieces : List Piece, (pieces.map (withNewline target.firstNewline?)).map (·.1) =
      pieces.map (·.1) := by
    intro pieces
    rw [List.map_map]
    refine List.map_congr_left fun piece _ => ?_
    unfold withNewline
    cases target.firstNewline? <;> rfl
  unfold TokenStream.moveAll at done
  simp only [adopted.ends.1, adopted.ends.2] at done
  cases whole : (source.adoptNewlines target).view with
  | nil =>
    have none : source.view = [] := by simpa [whole] using view.symm
    simp only [whole, List.head?_nil, Option.map_none, Prod.mk.injEq, Except.ok.injEq] at done
    obtain ⟨⟨rfl, rfl⟩, rfl⟩ := done
    exact ⟨sound, adopted, rfl, id, fun other => by rw [ids], [], by simp [renamed], by simp [none], whole,
      .inl ⟨none, rfl⟩⟩
  | cons piece rest =>
    obtain ⟨final, ends⟩ : ∃ final, (piece :: rest).getLast? = some final :=
      ⟨_, List.getLast?_eq_getLast_of_ne_nil (List.cons_ne_nil piece rest)⟩
    simp only [whole, List.head?_cons, Option.map_some, ends] at done
    have own : piece.1.chain = (source.adoptNewlines target).chain.id :=
      adopted.chain_of_view (by simp [whole])
    obtain ⟨after, after', id₁, id₁', total, ahead, behind, front, middle, back, moved, into, place, split, spans,
      view', carried, pairs, stays⟩ := sound.moveRange adopted (ids ▸ distinct) own done
    -- The range from the first to the last piece is the whole stream.
    have all : Spans piece.1 final.1 (piece :: rest) := ⟨rfl, by rw [ends]; rfl⟩
    have nodup := adopted.handles_nodup
    rw [split] at nodup
    have same : front ++ (middle ++ back) = [] ++ ((piece :: rest) ++ []) := by simpa [whole] using split.symm
    obtain ⟨rfl, rfl, rfl⟩ := spans_unique nodup same spans all
    have middle_eq : source.view.map (withNewline target.firstNewline?) = piece :: rest := by rw [← view, whole]
    refine ⟨after, after', id₁, id₁'.trans id, fun other => by rw [total other, ids], moved, ?_, ?_, ?_,
      .inr ⟨ahead, behind, into, place, view'⟩⟩
    · rw [pairs, renamed, renamed, ← middle_eq, handles]
    · exact middle_eq ▸ carried
    · simpa using stays

theorem moveRange_refused {target source source' : TokenStream} {before : Option Handle} {first last : Handle}
    {e : Error} (failed : target.moveRange before source first last = (.error e, source')) : source' = source := by
  unfold TokenStream.moveRange at failed
  cases checked : target.checkedPosition before with
  | error _ => exact (Prod.mk.inj (by simpa [checked] using failed)).2.symm
  | ok position =>
    cases found : source.rangeHandles first last with
    | error _ => exact (Prod.mk.inj (by simpa [checked, found] using failed)).2.symm
    | ok handles => simp [checked, found] at failed

/-- A failed move of everything has at most rewritten line breaks of the source. -/
theorem moveAll_refused {target source source' : TokenStream} {before : Option Handle} {e : Error}
    (failed : target.moveAll before source = (.error e, source')) : source' = source.adoptNewlines target := by
  unfold TokenStream.moveAll at failed
  cases start : (source.adoptNewlines target).first? with
  | none => simp [start] at failed
  | some first =>
    cases stop : (source.adoptNewlines target).last? with
    | none => simp [start, stop] at failed
    | some last => exact moveRange_refused (by simpa only [start, stop] using failed)

theorem Sound.push {s : TokenStream} (sound : s.Sound) (token : Token) :
    (s.push token).2.Sound ∧ (s.push token).2.view = s.view ++ [((s.push token).1, token, none)] ∧
      (s.push token).2.chain.id = s.chain.id ∧ (s.push token).2.ids = s.ids := by
  rcases placed : s.chain.insertAt (frontOf []) token with ⟨new, chain⟩
  have pushed : s.push token = (new, ⟨chain, s.nested⟩) := by
    have same : s.chain.pushBack token = (new, chain) := placed
    simp [TokenStream.push, same]
  obtain ⟨sound', view, id, _⟩ := sound.insert (List.append_nil s.view).symm placed
  rw [pushed]
  exact ⟨sound', view, id, s.ids_withChain id⟩

private theorem foldl_push {copy : TokenStream} (sound : copy.Sound) (tokens : List (Handle × Token))
    (pairs : List (Handle × Handle)) :
    ∃ copy' arrived, tokens.foldl (fun (copy, pairs) (h, token) =>
        let (new, copy) := copy.push token
        (copy, pairs ++ [(h, new)])) (copy, pairs) =
          (copy', pairs ++ (tokens.map (·.1)).zip (arrived.map (·.1))) ∧
      copy'.Sound ∧ copy'.view = copy.view ++ arrived ∧ copy'.chain.id = copy.chain.id ∧ copy'.ids = copy.ids ∧
      arrived.map (·.2) = tokens.map fun entry => (entry.2, none) := by
  induction tokens generalizing copy pairs with
  | nil => exact ⟨copy, [], by simp, sound, by simp, rfl, rfl, rfl⟩
  | cons entry rest ih =>
    obtain ⟨h, token⟩ := entry
    obtain ⟨sound₁, view₁, id₁, ids₁⟩ := sound.push token
    obtain ⟨copy', arrived, run, sound', view, id, ids, contents⟩ := ih sound₁ (pairs ++ [(h, (copy.push token).1)])
    refine ⟨copy', ((copy.push token).1, token, none) :: arrived, ?_, sound', ?_, id.trans id₁, ids.trans ids₁, ?_⟩
    · exact run.trans (by simp)
    · rw [view, view₁]
      simp
    · simp [contents]

theorem sound_empty (id : ChainId) : (TokenStream.empty id).Sound :=
  ⟨Chain.sound_empty id, List.nodup_nil, by simp, trivial⟩

private theorem id_foldl_renameAlias (r : Renaming) (handles : List Handle) (s : TokenStream) :
    (handles.foldl (TokenStream.renameAlias r) s).chain.id = s.chain.id := by
  induction handles generalizing s with
  | nil => rfl
  | cons h rest ih =>
    refine (ih _).trans ?_
    unfold TokenStream.renameAlias
    split
    · split
      · exact s.id_modify h _
      · rfl
    · rfl

theorem copyRange_id {s copy : TokenStream} {id : ChainId} {first last : Handle} {names : Renaming}
    (done : s.copyRange id first last = .ok (names, copy)) : copy.chain.id = id := by
  unfold TokenStream.copyRange at done
  cases walked : s.range first last with
  | error e => simp [walked, bind, Except.bind] at done
  | ok entries =>
    obtain ⟨copy₁, _, run, _, _, id₁, _⟩ := foldl_push (sound_empty id) entries []
    simp only [walked, bind, Except.bind] at done
    rw [run] at done
    split_ifs at done
    cases done
    exact (id_foldl_renameAlias _ _ _).trans id₁

/-- The new stream has the pieces from `first` to `last`, which own nothing in it. -/
def Copied (s : TokenStream) (first last : Handle) (names : Renaming) (copy : TokenStream) : Prop :=
  ∃ front middle back, s.view = front ++ (middle ++ back) ∧ Spans first last middle ∧
    names.pairs = renamed middle copy.view ∧
    copy.view.map (·.2) = middle.map fun piece => (names.redirect piece.2.1, none)

theorem Sound.copyRange {s copy : TokenStream} (sound : s.Sound) {id : ChainId} {first last : Handle}
    {names : Renaming} (own : first.chain = s.chain.id) (done : s.copyRange id first last = .ok (names, copy)) :
    copy.Sound ∧ copy.ids = [id] ∧ copy.chain.id = id ∧ Copied s first last names copy := by
  unfold TokenStream.copyRange at done
  cases walked : s.range first last with
  | error e => simp [walked, bind, Except.bind] at done
  | ok entries =>
    obtain ⟨copy₁, arrived, run, sound₁, view₁, id₁, ids₁, contents⟩ := foldl_push (sound_empty id) entries []
    have lengths : arrived.length = entries.length := by simpa using congrArg List.length contents
    have start : ((TokenStream.empty id).view : List Piece) = [] := rfl
    rw [start, List.nil_append] at view₁
    rw [List.nil_append] at run
    simp only [walked, bind, Except.bind] at done
    rw [run] at done
    have copies : ((entries.map (·.1)).zip (arrived.map (·.1))).map (·.2) = arrived.map (·.1) :=
      List.map_snd_zip (by simp [lengths])
    rcases sound.range own walked with ⟨front, back, split, begins, stops⟩ | absent
    · split_ifs at done
      simp only [copies, pure, Except.pure, Except.ok.injEq, Prod.mk.injEq] at done
      obtain ⟨rfl, rfl⟩ := done
      have inside : ∀ h ∈ arrived.map (·.1), h.chain = copy₁.chain.id := by
        intro h member
        obtain ⟨piece, listed, rfl⟩ := List.mem_map.mp member
        exact sound₁.chain_of_view (view₁ ▸ listed)
      obtain ⟨sound₂, ids₂, id₂, view₂⟩ := sound₁.foldl_renameAlias
        ⟨(entries.map (·.1)).zip (arrived.map (·.1))⟩ (view₁ ▸ sound₁.handles_nodup) inside
      rw [sound₁.redirect_part _ (show copy₁.view = [] ++ (arrived ++ []) by simpa using view₁), List.nil_append,
        List.append_nil] at view₂
      refine ⟨sound₂, ids₂.trans ids₁, id₂.trans id₁, front.map s.piece, entries.map s.piece, back.map s.piece,
        ?_, ⟨?_, ?_⟩, ?_, ?_⟩
      · rw [view, entries_eq, split, List.map_append, List.map_append]
      · rw [List.head?_map, Option.map_map, ← begins]
        rfl
      · rw [List.getLast?_map, Option.map_map, ← stops]
        rfl
      · rw [view₂, renamed]
        simp [Renaming.redirectPiece, piece, Function.comp_def]
      · have each := congrArg (List.map fun content : Token × Option TokenStream =>
          (Renaming.redirect ⟨(entries.map (·.1)).zip (arrived.map (·.1))⟩ content.1, content.2)) contents
        rw [view₂]
        simpa [Renaming.redirectPiece, piece, Function.comp_def] using each
    · have missing : Renaming.get? ⟨(entries.map (·.1)).zip (arrived.map (·.1))⟩ last = none := by
        refine lookup_of_not_mem ?_
        rw [List.map_fst_zip (by simp [lengths])]
        exact absent
      simp [missing] at done

/-- The pieces from `first` to `last` gave way to every piece of `source`. Between the
move and the removal the stream is `joined`. -/
def Exchanged (s : TokenStream) (first last : Handle) (source : TokenStream) (names : Renaming)
    (s' source' : TokenStream) : Prop :=
  ∃ front middle back moved joined, s.view = front ++ (middle ++ back) ∧ Spans first last middle ∧
    names.pairs = renamed source.view moved ∧
    List.Forall₂ (Carried (source.adoptNewlines s) names) (source.view.map (withNewline s.firstNewline?)) moved ∧
    TokenStream.view joined = front ++ (moved ++ (middle ++ back)) ∧ source'.view = [] ∧
    List.Forall₂ (Stays joined) (front ++ (moved ++ back)) s'.view

/-- What comes right before a range is put between the range and what precedes it. -/
theorem Sound.joined_view {s source joined left : TokenStream} (sound : s.Sound) {first last : Handle}
    {front middle back : List Piece} (split : s.view = front ++ (middle ++ back)) (spans : Spans first last middle)
    {names : Renaming} (arrived : MovedAll s (some first) source names joined left) :
    ∃ moved, names.pairs = renamed source.view moved ∧
      List.Forall₂ (Carried (source.adoptNewlines s) names) (source.view.map (withNewline s.firstNewline?)) moved ∧
      left.view = [] ∧ joined.view = (front ++ moved) ++ (middle ++ back) := by
  obtain ⟨moved, pairs, carried, empty, arrival⟩ := arrived
  refine ⟨moved, pairs, carried, empty, ?_⟩
  rcases arrival with ⟨none, rfl⟩ | ⟨ahead, behind, into, place, after⟩
  · have nothing : moved = [] := by simpa [none] using carried
    simpa [nothing] using split
  · obtain ⟨start, rest, rfl, named⟩ := spans.first
    cases behind with
    | nil => cases place
    | cons piece more =>
      have nodup := sound.handles_nodup
      rw [split] at nodup
      have same : front ++ (start :: (rest ++ back)) = ahead ++ piece :: more := split.symm.trans into
      obtain ⟨rfl, rfl, rfl⟩ := split_unique nodup same (named.trans (by simpa using place.symm))
      simpa using after

theorem Sound.exchange {s source s' source' : TokenStream} (sound : s.Sound) (sound' : source.Sound)
    (distinct : (s.ids ++ source.ids).Nodup) {first last : Handle} {names : Renaming}
    (own : first.chain = s.chain.id) (done : s.exchange first last source = (.ok (names, s'), source')) :
    s'.Sound ∧ source'.Sound ∧ s'.chain.id = s.chain.id ∧ source'.chain.id = source.chain.id ∧
      (∀ id, s'.ids.count id + source'.ids.count id ≤ s.ids.count id + source.ids.count id) ∧
      Exchanged s first last source names s' source' := by
  unfold TokenStream.exchange at done
  cases found : s.rangeHandles first last with
  | error e => simp [found] at done
  | ok handles =>
    obtain ⟨front, middle, back, split, _, spans⟩ := sound.rangeHandles own found
    cases run : s.moveAll (some first) source with
    | mk result left =>
    cases result with
    | error e => simp [found, run] at done
    | ok pair =>
      obtain ⟨names', joined⟩ := pair
      obtain ⟨_, distinctSource, _⟩ := List.nodup_append'.mp distinct
      obtain ⟨sound₁, sound₁', id₁, id₁', total, arrived⟩ := sound.moveAll sound' distinctSource run
      obtain ⟨moved, pairs, carried, empty, view⟩ := sound.joined_view split spans arrived
      have distinct₁ : joined.ids.Nodup := by
        refine List.nodup_iff_count_le_one.mpr fun id => ?_
        have once := List.nodup_iff_count_le_one.mp distinct id
        rw [List.count_append] at once
        have sum := total id
        omega
      simp only [found, run, Prod.mk.injEq] at done
      obtain ⟨done, rfl⟩ := done
      cases erased : joined.erase first last with
      | error e => simp [erased, bind, Except.bind] at done
      | ok final =>
        obtain ⟨rfl, rfl⟩ : names' = names ∧ final = s' := by
          simpa [erased, bind, Except.bind, pure, Except.pure] using done
        obtain ⟨sound₂, id₂, counted, front₂, middle₂, back₂, split₂, spans₂, stays⟩ :=
          sound₁.erase distinct₁ (own.trans id₁.symm) erased
        -- The range from `first` to `last` is where it was, behind what came.
        have nodup := sound₁.handles_nodup
        rw [split₂] at nodup
        obtain ⟨rfl, rfl, rfl⟩ := spans_unique nodup (split₂.symm.trans view) spans₂ spans
        refine ⟨sound₂, sound₁', id₂.trans id₁, id₁', fun id => ?_, front, middle₂, back₂, moved, joined, split, spans,
          pairs, carried, by simpa using view, empty, by simpa using stays⟩
        have bound := counted id
        have sum := total id
        omega

/-- What an exchange that fails leaves of its source: only a range that is not found is
noticed before the line breaks are written. -/
def unexchanged (s : TokenStream) (first last : Handle) (source : TokenStream) : TokenStream :=
  match s.rangeHandles first last with
  | .ok _ => source.adoptNewlines s
  | .error _ => source

/-- Once the range is found and the pieces have come, nothing can fail any more. -/
theorem Sound.exchange_refused {s source source' : TokenStream} (sound : s.Sound) (sound' : source.Sound)
    (distinct : source.ids.Nodup) {first last : Handle} (own : first.chain = s.chain.id) {e : Error}
    (failed : s.exchange first last source = (.error e, source')) : source' = s.unexchanged first last source := by
  unfold TokenStream.exchange at failed
  unfold unexchanged
  cases found : s.rangeHandles first last with
  | error _ => exact (Prod.mk.inj (by simpa [found] using failed)).2.symm
  | ok handles =>
    obtain ⟨front, middle, back, split, _, spans⟩ := sound.rangeHandles own found
    cases run : s.moveAll (some first) source with
    | mk result left =>
    cases result with
    | error e' =>
      have same : left = source' := by simpa [found, run] using congrArg (·.2) failed
      exact same ▸ moveAll_refused run
    | ok pair =>
      obtain ⟨names, joined⟩ := pair
      obtain ⟨sound₁, _, id₁, _, _, arrived⟩ := sound.moveAll sound' distinct run
      obtain ⟨moved, _, _, _, view⟩ := sound.joined_view split spans arrived
      have ranged := sound₁.rangeHandles_ok view spans
      have erased : ∃ final, joined.erase first last = .ok final := by
        simp [TokenStream.erase, checkedOwner, own.trans id₁.symm, ranged, bind, Except.bind, pure, Except.pure]
      obtain ⟨final, erased⟩ := erased
      simp [found, run, erased, bind, Except.bind, pure, Except.pure] at failed

theorem Sound.unexchanged {source : TokenStream} (sound : source.Sound) (s : TokenStream) (first last : Handle) :
    (s.unexchanged first last source).Sound ∧ (s.unexchanged first last source).ids = source.ids ∧
      (s.unexchanged first last source).chain.id = source.chain.id := by
  unfold TokenStream.unexchanged
  split
  · obtain ⟨adopted, ids, id, _⟩ := sound.adoptNewlines s
    exact ⟨adopted, ids, id⟩
  · exact ⟨sound, rfl, rfl⟩

end YaraRules.TokenStream

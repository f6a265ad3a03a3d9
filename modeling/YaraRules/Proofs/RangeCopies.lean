import YaraRules.Proofs.StreamCopies
import YaraRules.Proofs.StreamRecasts

/-! Ranges that give way to copies of themselves. The copy has a stream of its own, where aliases
that lead out of the range lead nowhere; so they are still aliases when the copy comes back,
and nothing but handles and line breaks tells the stream from what it was. -/

namespace YaraRules.TokenStream

variable {s copy joined after : TokenStream} {names names' : Renaming} {first last h : Handle} {zone : List Handle}
  {id : ChainId} {front middle back ahead new behind : List Piece} {a : Token}

/-! ### Copies -/

private theorem keys_foldl_push (tokens : List (Handle × Token)) :
    ∀ (copy : TokenStream) (pairs : List (Handle × Handle)),
    (tokens.foldl (fun (copy, pairs) (h, token) =>
      let (new, copy) := TokenStream.push copy token
      (copy, pairs ++ [(h, new)])) (copy, pairs)).2.map (·.1) = pairs.map (·.1) ++ tokens.map (·.1) := by
  induction tokens with
  | nil => simp
  | cons entry rest ih =>
    intro copy pairs
    rw [List.foldl_cons, ih]
    simp

private theorem copyRange_ok {entries : List (Handle × Token)} (walked : s.range first last = .ok entries)
    (listed : last ∈ entries.map (·.1)) (id : ChainId) :
    ∃ names copy, s.copyRange id first last = .ok (names, copy) := by
  have keys := keys_foldl_push entries (empty id) []
  simp only [copyRange, walked, bind, Except.bind]
  generalize entries.foldl _ (empty id, []) = folded at keys
  obtain ⟨copy, pairs⟩ := folded
  have known : (Renaming.get? ⟨pairs⟩ last).isNone = false := by
    have found : Renaming.get? ⟨pairs⟩ last = some _ := get?_renamed (by simpa [keys] using listed)
    rw [found]
    rfl
  simp only [known]
  exact ⟨_, _, rfl⟩

/-- A token that leads to none of the renamed ones is redirected nowhere. -/
theorem redirect_idle (unnamed : ∀ target, a.literal.aliasTarget? = some target → names.get? target = none) :
    names.redirect a = a := by
  unfold Renaming.redirect
  cases points : a.literal.aliasTarget? with
  | none => rfl
  | some target => simp [unnamed target points]

/-- Where no alias leads into the range, its tokens are copied as they are. -/
theorem Secluded.copied (secluded : s.Secluded zone) (split : s.view = front ++ (middle ++ back))
    (range : middle.map (·.1) = zone) (pairs : names.pairs = renamed middle copy.view)
    (contents : copy.view.map (·.2) = middle.map fun piece => (names.redirect piece.2.1, none)) : List.Forall₂
    (fun old new : Piece => new.1 = names.apply old.1 ∧ new.2 = (old.2.1, none)) middle copy.view := by
  have lengths : middle.length = copy.view.length := by simpa using (congrArg List.length contents).symm
  have once := secluded.tidy.sound.handles_nodup
  rw [split, List.map_append, List.map_append] at once
  have named := apply_renamed pairs (List.nodup_append'.mp (List.nodup_append'.mp once).2.1).1 lengths
  have keys : names.pairs.map (·.1) = zone := (keys_renamed pairs lengths).trans range
  have tokens : List.Forall₂ (fun old new : Piece => new.2 = (names.redirect old.2.1, none)) middle copy.view := by
    have equal := List.forall₂_eq_eq_eq ▸ contents
    rw [List.forall₂_map_left_iff, List.forall₂_map_right_iff] at equal
    exact equal.flip
  rw [List.forall₂_iff_zip] at named tokens ⊢
  refine ⟨lengths, fun {old new} pair => ⟨named.2 pair, ?_⟩⟩
  have member : old ∈ s.view := by simp [split, (List.of_mem_zip pair).1]
  have stored := (secluded.tidy.sound.get?_view secluded.tidy.distinct).mpr ⟨old, member, .inl ⟨rfl, rfl⟩⟩
  have same : names.redirect old.2.1 = old.2.1 := redirect_idle fun target points =>
    lookup_of_not_mem (keys ▸ secluded.aside old.1 old.2.1 target stored points)
  rw [tokens.2 pair, same]

/-! ### Arrivals -/

/-- What leads out of a stream of its own arrives as it is, apart from line breaks. -/
theorem Received.renewed (received : Received s copy joined names ahead new behind)
    (foreign : ∀ h a target, copy.get? h = some a → a.literal.aliasTarget? = some target →
    target.chain ∉ copy.ids) : List.Forall₂ (fun old new :
    Piece => new.1 = names.apply old.1 ∧ s.Renewed True old.2.1 new.2.1 ∧ new.2.2 = none) copy.view new := by
  have named := List.forall₂_iff_zip.mp received.named
  have carried := List.forall₂_iff_zip.mp (List.forall₂_map_left_iff.mp received.carried)
  refine List.forall₂_iff_zip.mpr ⟨named.1, fun {old new} pair => ⟨named.2 pair, ?_⟩⟩
  have listed := (List.of_mem_zip pair).1
  obtain ⟨⟨settled, ⟨_, literal, rfl, origin⟩, token⟩, owned⟩ := carried.2 pair
  obtain ⟨_, _, sub⟩ := withNewline_eq s.firstNewline? old
  constructor
  · have renewed : s.Renewed True old.2.1 (withNewline s.firstNewline? old).2.1 := by
      unfold withNewline
      cases first : s.firstNewline? with
      | none => exact .inl rfl
      | some text =>
        dsimp only
        split_ifs with line
        · exact .inr ⟨trivial, by simpa using line, text, first, rfl⟩
        · exact .inl rfl
    have leads (target : Handle) (points : (withNewline s.firstNewline? old).2.1.literal.aliasTarget? = some target) :
        target.chain ∉ copy.ids := by
      have same := renewed.of_alias points
      exact foreign old.1 old.2.1 target (received.lone.get?_eq_some.mpr
        (received.lone.free listed ▸ listed)) (same ▸ points)
    -- What an alias leads to is not there, so nothing can be copied in its place.
    obtain rfl : literal = (withNewline s.firstNewline? old).2.1.literal :=
      origin.elim (fun same => same) fun stands => by
      cases stands with
      | plain => rfl
      | follow points found _ =>
        refine absurd ?_ (leads _ points)
        rw [← (received.lone.sound.adoptNewlines s).2.1]
        exact mem_ids_of_get? found
    have still : names.redirect (withNewline s.firstNewline? old).2.1 = (withNewline s.firstNewline? old).2.1 :=
      redirect_idle fun target points => received.renames_none <| Option.eq_none_iff_forall_ne_some.mpr fun b found =>
        leads target points (mem_ids_of_get? found)
    exact (token.trans still) ▸ renewed
  · rw [sub, received.lone.free listed] at owned
    cases held : new.2.2 with
    | none => rfl
    | some _ => simp [held] at owned

/-! ### Removals -/

private theorem Tidy.erase_idle (tidy : s.Tidy) (split : s.view = front ++ (middle ++ back))
    (spans : Spans first last middle)
    (unnamed : ∀ k a, s.get? k = some a → ∀ target ∈ middle.map (·.1), a.literal.aliasTarget? ≠ some target)
    (done : s.erase first last = .ok after) : after.Tidy ∧ after.chain.id = s.chain.id ∧ after.ids ⊆ s.ids ∧
    after.view = front ++ back := by
  obtain ⟨tidy', id, ids, _⟩ := tidy.erase_spots done
  refine ⟨tidy', id, ids, ?_⟩
  have own : first.chain = s.chain.id := by
    obtain ⟨piece, _, rfl, rfl⟩ := spans.first
    exact tidy.sound.chain_of_view (by simp [split])
  unfold TokenStream.erase checkedOwner at done
  rw [own, owner?_self] at done
  have dropped : s.dropAll (middle.map (·.1)) = after := by
    simpa [tidy.sound.rangeHandles_ok split spans, tidy.sound.detachAliases_idle tidy.distinct unnamed, bind,
      Except.bind, pure, Except.pure]
      using done
  exact dropped ▸ (tidy.sound.dropAll split).2.1

/-! ### Exchanges -/

/-- Pieces like those of a part came in front of it, and then the part went. -/
theorem Secluded.replaced (secluded : s.Secluded zone) (split : s.view = front ++ (middle ++ back))
    (range : middle.map (·.1) = zone) (received : Received s copy joined names front new (middle ++ back))
    {f : Handle → Handle} (alike : List.Forall₂ (fun old new : Piece => new.1 = f old.1 ∧
    s.Renewed True old.2.1 new.2.1 ∧ new.2.2 = none) middle new) (spans : Spans first last middle)
    (erased : joined.erase first last = .ok after) : Recast zone (fun h => if h ∈ zone then f h else h) s after ∧
    after.ids ⊆ joined.ids := by
  -- What an alias leads to now, an alias led to before.
  have unnamed (k : Handle) (a : Token) (found : joined.get? k = some a) (target : Handle)
    (held : target ∈ middle.map (·.1)) :
      a.literal.aliasTarget? ≠ some target := by
    intro points
    have apart (k : Handle) (stored : s.get? k = some a) : False :=
      secluded.aside k a target stored points (range ▸ held)
    obtain ⟨piece, member, place⟩ := (received.tidy'.sound.get?_view received.tidy'.distinct).mp found
    rw [received.now] at member
    have kept (old : piece ∈ s.view) : False :=
      apart k ((secluded.tidy.sound.get?_view secluded.tidy.distinct).mpr ⟨piece, old, by rwa [received.own] at place⟩)
    rcases List.mem_append.mp member with early | rest
    · exact kept (by simp [split, early])
    rcases List.mem_append.mp rest with arrived | late
    · obtain ⟨old, inside, _, renewed, bare⟩ := mem_of_forall₂ alike arrived
      rcases place with ⟨_, rfl⟩ | ⟨_, sub, owned, _⟩
      · have same := renewed.of_alias points
        have listed : old ∈ s.view := by simp [split, inside]
        exact apart old.1 (same ▸ (secluded.tidy.sound.get?_view secluded.tidy.distinct).mpr
          ⟨old, listed, .inl ⟨rfl, rfl⟩⟩)
      · cases bare.symm.trans owned
    · exact kept (by simp [split, List.mem_append.mp late])
  obtain ⟨tidy, own, ids, view⟩ :=
    received.tidy'.erase_idle (show joined.view = (front ++ new) ++ (middle ++ back) by simp [received.now])
    spans unnamed erased
  refine ⟨⟨tidy, own.trans received.own, ?_, fun h _ outside => if_neg outside⟩, ids⟩
  have once := secluded.tidy.sound.handles_nodup
  rw [split, List.map_append, List.map_append, range, List.nodup_append', List.nodup_append'] at once
  obtain ⟨_, ⟨_, _, behind⟩, ahead⟩ := once
  have still (part : List Piece) (outside : ∀ piece ∈ part, piece.1 ∉ zone) : List.Forall₂ (fun old new : Piece =>
      new.1 = (if old.1 ∈ zone then f old.1 else old.1) ∧ s.Renewed (old.1 ∈ zone) old.2.1 new.2.1 ∧ new.2.2 =
        old.2.2) part part :=
    List.forall₂_same.mpr fun piece member => ⟨(if_neg (outside piece member)).symm, .inl rfl, rfl⟩
  rw [split, view, List.append_assoc]
  refine List.rel_append (still front ?_) (List.rel_append ?_ (still back ?_))
  · intro piece member held
    exact ahead (List.mem_map_of_mem member) (List.mem_append_left _ held)
  · refine (forall₂_members alike).imp ?_
    rintro old new ⟨member, _, named, renewed, bare⟩
    have held : old.1 ∈ zone := range ▸ List.mem_map_of_mem member
    have alone : old.2.2 = none := secluded.bare old (by simp [split, member]) held
    exact ⟨by rw [named, if_pos held], renewed.imp_right fun line => ⟨held, line.2⟩, bare.trans alone.symm⟩
  · intro piece member held
    exact behind held (List.mem_map_of_mem member)

private theorem Secluded.copy_ok (secluded : s.Secluded zone) (begins : zone.head? = some first)
    (ends : zone.getLast? = some last) (id : ChainId) :
    ∃ names copy front middle back, s.copyRange id first last = .ok (names, copy) ∧ copy.Lone ∧ copy.chain.id = id ∧
      s.view = front ++ (middle ++ back) ∧ middle.map (·.1) = zone ∧ Spans first last middle ∧
      List.Forall₂ (fun old new : Piece => new.1 = names.apply old.1 ∧ new.2 = (old.2.1, none)) middle copy.view := by
  have sound := secluded.tidy.sound
  have own : first.chain = s.chain.id := secluded.chain (List.mem_of_head? begins)
  have spanned : s.Spanned first last zone :=
    ⟨s, owner?_top own, by rw [handles_view]; exact secluded.inside, begins, ends⟩
  obtain ⟨entries, walked, listed⟩ := spanned.range sound
  obtain ⟨names, copy, copied⟩ := copyRange_ok walked (listed ▸ List.mem_of_getLast? ends) id
  obtain ⟨sound', ids, named, front, middle, back, split, spans, pairs, contents⟩ := sound.copyRange own copied
  have within : middle.map (·.1) <:+: s.entries.map (·.1) := by
    rw [handles_view, split]
    exact ⟨front.map (·.1), back.map (·.1), by simp⟩
  have between : s.Spanned first last (middle.map (·.1)) :=
    ⟨s, owner?_top own, within, by simpa using spans.1, by simpa using spans.2⟩
  have range := between.unique spanned sound
  exact ⟨names, copy, front, middle, back, copied, ⟨sound', by rw [ids, named]⟩, named, split, range, spans,
    secluded.copied split range pairs contents⟩

/-- What comes before the first token of a range is put right before the range. -/
theorem Received.before_range (received : Received s copy joined names ahead new behind)
    (place : behind.head?.map (·.1) = some first) (split : s.view = front ++ (middle ++ back))
    (spans : Spans first last middle) : front = ahead ∧ middle ++ back = behind := by
  have once := received.tidy.sound.handles_nodup
  rw [split] at once
  obtain ⟨start, rest, rfl, begins⟩ := spans.first
  cases behind with
  | nil => cases place
  | cons next more =>
    have whole : front ++ start :: (rest ++ back) = ahead ++ next :: more := by simpa [split] using received.before
    obtain ⟨rfl, rfl, rfl⟩ := split_unique (by simpa using once) whole (begins.trans (by simpa using place.symm))
    exact ⟨rfl, rfl⟩

/-- A range can be copied, and the copy can take its place. -/
theorem Secluded.exchange_copy (secluded : s.Secluded zone) (begins : zone.head? = some first)
    (ends : zone.getLast? = some last)
    (fresh : id ∉ s.ids) :
    ∃ names copy, s.copyRange id first last = .ok (names, copy) ∧ copy.chain.id = id ∧
      ∃ names' after, (s.exchange first last copy).1 = .ok (names', after) ∧ (∀ i ∈ after.ids, i ∈ s.ids ∨ i = id) ∧
        ∃ f, Recast zone f s after ∧ ∀ h ∈ zone, f h = names'.apply (names.apply h) := by
  obtain ⟨names, copy, front, middle, back, copied, lone, named, split, range, spans, same⟩ :=
    secluded.copy_ok begins ends id
  refine ⟨names, copy, copied, named, ?_⟩
  have sound := secluded.tidy.sound
  have own : first.chain = s.chain.id := secluded.chain (List.mem_of_head? begins)
  have nonempty : copy.view ≠ [] := by
    obtain ⟨piece, rest, filled, _⟩ := spans.first
    exact fun empty => by simpa [empty, filled] using same.length_eq
  have foreign (h : Handle) (a : Token) (target : Handle) (found : copy.get? h = some a)
    (points : a.literal.aliasTarget? = some target) :
      target.chain ∉ copy.ids := by
    obtain ⟨old, member, _, token⟩ := mem_of_forall₂ same (lone.get?_eq_some.mp found)
    have stored := (sound.get?_view secluded.tidy.distinct).mpr ⟨old, by simp [split, member], .inl ⟨rfl, rfl⟩⟩
    obtain ⟨b, held, _⟩ := secluded.firm old.1 old.2.1 stored target ((Prod.mk.inj token).1 ▸ points)
    rw [lone.ids, named, List.mem_singleton]
    exact fun here => fresh (here ▸ mem_ids_of_get? held)
  obtain ⟨names', after, done⟩ := secluded.tidy.exchange_ok lone nonempty own (sound.rangeHandles_ok split spans)
  obtain ⟨joined, left, moved, erased⟩ := exchange_steps done
  obtain ⟨ahead, new, behind, received, place⟩ := secluded.tidy.moveAll_received lone nonempty moved
  obtain ⟨rfl, rfl⟩ := received.before_range place split spans
  have alike : List.Forall₂ (fun old new : Piece =>
    new.1 = (names'.apply ∘ names.apply) old.1 ∧ s.Renewed True old.2.1 new.2.1 ∧
      new.2.2 = none) middle new := by
    refine forall₂_trans ?_ same (received.renewed foreign)
    rintro old between new ⟨named, token⟩ ⟨named', renewed, bare⟩
    exact ⟨by rw [named', named, Function.comp_apply], (Prod.mk.inj token).1 ▸ renewed, bare⟩
  obtain ⟨recast, fewer⟩ := secluded.replaced split range received alike spans erased
  refine ⟨names', after, done, fun i member => ?_, _, recast, fun h held => if_pos held⟩
  have either := received.ids i (fewer member)
  rwa [lone.ids, named, List.mem_singleton] at either

end YaraRules.TokenStream

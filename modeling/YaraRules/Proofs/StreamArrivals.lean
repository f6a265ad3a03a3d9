import YaraRules.Proofs.StreamSplices

/-! Tokens that arrive from a stream of their own. What is built or copied is moved into a
stream, or takes the place of a range there. The move succeeds exactly when the place is in
the stream itself and not in one nested there; then the tokens have the texts that they had. -/

namespace YaraRules.TokenStream

variable {s source joined after : TokenStream} {names : Renaming} {h : Handle} {a b : Token}

/-! ### Streams of their own -/

theorem Lone.get?_eq_some (lone : s.Lone) : s.get? h = some a ↔ (h, a, none) ∈ s.view := by
  rw [lone.sound.get?_view (by simp [lone.ids])]
  constructor
  · rintro ⟨⟨k, b, sub⟩, member, here⟩
    obtain rfl : sub = none := lone.free member
    obtain ⟨rfl, rfl⟩ : k = h ∧ b = a := by simpa using here
    exact member
  · intro member
    exact ⟨_, member, .inl ⟨rfl, rfl⟩⟩

/-- Tokens that are no line breaks stay as they are when line breaks are adopted. -/
theorem Lone.adopt (lone : source.Lone) (s : TokenStream) : (source.adoptNewlines s).Lone ∧
    ∀ h a, a.kind ≠ .newLine → source.get? h = some a → (source.adoptNewlines s).get? h = some a := by
  obtain ⟨sound, ids, id, view⟩ := lone.sound.adoptNewlines s
  have lone' : (source.adoptNewlines s).Lone := ⟨sound, by rw [ids, lone.ids, id]⟩
  refine ⟨lone', fun h a word stored => ?_⟩
  have same : withNewline s.firstNewline? (h, a, none) = (h, a, none) := by
    unfold withNewline
    cases s.firstNewline? <;> simp [word]
  rw [lone'.get?_eq_some, view, ← same]
  exact List.mem_map_of_mem (lone.get?_eq_some.mp stored)

/-! ### What arrives -/

/-- The pieces of a stream of its own were put between those of another stream. -/
structure Received (s source after : TokenStream) (names : Renaming) (ahead new behind : List Piece) : Prop
    extends Widened s after ahead new behind where
  lone : source.Lone
  ids : ∀ id ∈ after.ids, id ∈ s.ids ∨ id ∈ source.ids
  pairs : names.pairs = renamed source.view new
  carried : List.Forall₂ (Carried (source.adoptNewlines s) names) (source.view.map (withNewline s.firstNewline?)) new

namespace Received

variable {ahead new behind : List Piece} (received : Received s source after names ahead new behind)
include received

theorem named : List.Forall₂ (fun piece piece' => piece'.1 = names.apply piece.1) source.view new :=
  apply_renamed received.pairs received.lone.sound.handles_nodup (by simpa using received.carried.length_eq)

theorem keys : names.pairs.map (·.1) = source.view.map (·.1) := keys_renamed received.pairs received.named.length_eq

/-- A token that leads to one that moved is redirected. -/
theorem renames (stored : source.get? h = some a) : names.get? h = some (names.apply h) :=
  get?_renamed (received.keys ▸ List.mem_map_of_mem (received.lone.get?_eq_some.mp stored))

theorem renames_none (missing : source.get? h = none) : names.get? h = none := by
  refine lookup_of_not_mem fun listed => ?_
  rw [received.keys] at listed
  obtain ⟨⟨k, a, sub⟩, member, rfl⟩ := List.mem_map.mp listed
  obtain rfl : sub = none := received.lone.free member
  rw [received.lone.get?_eq_some.mpr member] at missing
  cases missing

/-- A token that is no line break is found under its new handle. An alias may have become a copy. -/
theorem arrives (stored : source.get? h = some a) (word : a.kind ≠ .newLine) : ∃ settled,
    Kept (source.adoptNewlines s) h a settled ∧ after.get? (names.apply h) = some (names.redirect settled) := by
  have named := List.forall₂_iff_zip.mp received.named
  have carried := List.forall₂_iff_zip.mp (List.forall₂_map_left_iff.mp received.carried)
  have both : List.Forall₂ (fun piece piece' => piece'.1 = names.apply piece.1 ∧
      Carried (source.adoptNewlines s) names (withNewline s.firstNewline? piece) piece') source.view new :=
    List.forall₂_iff_zip.mpr ⟨named.1, fun pair => ⟨named.2 pair, carried.2 pair⟩⟩
  obtain ⟨piece, member, arrived, ⟨settled, kept, token⟩, _⟩ :=
    mem_of_forall₂ both.flip (received.lone.get?_eq_some.mp stored)
  have same : withNewline s.firstNewline? (h, a, none) = (h, a, none) := by
    unfold withNewline
    cases s.firstNewline? <;> simp [word]
  rw [same] at kept
  refine ⟨settled, kept, ?_⟩
  rw [← token, ← arrived]
  exact received.get?_new member

theorem arrives_plain (stored : source.get? h = some a) (word : a.kind ≠ .newLine) (plain : Plain a) :
    after.get? (names.apply h) = some a := by
  obtain ⟨settled, ⟨_, literal, rfl, origin⟩, found⟩ := received.arrives stored word
  obtain rfl : literal = a.literal := origin.elim (fun same => same) fun stands => stands.of_plain plain
  rw [found, Renaming.redirect, show a.literal.aliasTarget? = none from plain]
  rfl

/-- A token has the text that it had. One that leads to a token of neither stream has none. -/
theorem text_new (stored : source.get? h = some a) (word : a.kind ≠ .newLine)
    (leads : ∀ target, a.literal.aliasTarget? = some target →
      (∃ b, source.get? target = some b ∧ Plain b ∧ b.kind ≠ .newLine) ∨
        target.chain ∉ s.ids ∧ target.chain ∉ source.ids) :
    after.text (names.apply h) = source.text h := by
  obtain ⟨lone, adopted⟩ := received.lone.adopt s
  obtain ⟨settled, ⟨_, literal, rfl, origin⟩, found⟩ := received.arrives stored word
  rw [text_eq _ stored]
  cases points : a.literal.aliasTarget? with
  | none => rw [text_eq _ (received.arrives_plain stored word points), textOf_plain _ points, textOf_plain _ points]
  | some target =>
    rcases leads target points with ⟨b, held, plain, line⟩ | ⟨foreign, outside⟩
    · rw [textOf_alias _ points held plain]
      rcases origin with rfl | stands
      · have redirected : names.redirect a = { a with literal := .ofAlias (names.apply target) } := by
          simp [Renaming.redirect, points, received.renames held]
        rw [text_eq _ found, redirected]
        exact textOf_alias _ rfl (received.arrives_plain held line plain) plain
      · have firm : (source.adoptNewlines s).Firm a := fun other points' => by
          obtain rfl := Option.some.inj (points.symm.trans points')
          exact ⟨b, adopted _ b line held, plain⟩
        obtain ⟨own, text⟩ := stands.of_firm firm
        rw [textOf_alias _ points (adopted _ b line held) plain] at text
        rw [text_eq _ found, Renaming.redirect, own, text]
        exact textOf_plain _ own
    · have missing : source.get? target = none :=
        Option.eq_none_iff_forall_ne_some.mpr fun b held => outside (mem_ids_of_get? held)
      have missing' : after.get? target = none :=
        Option.eq_none_iff_forall_ne_some.mpr fun b held =>
          (received.ids _ (mem_ids_of_get? held)).elim foreign outside
      have lost : (source.adoptNewlines s).get? target = none :=
        Option.eq_none_iff_forall_ne_some.mpr fun b held => outside <| by
          rw [received.lone.ids, ← (received.lone.sound.adoptNewlines s).2.2.1, ← lone.ids]
          exact mem_ids_of_get? held
      obtain rfl : literal = a.literal := origin.elim (fun same => same) fun stands => by
        cases stands with
        | plain own => cases points.symm.trans own
        | follow points' held _ =>
          obtain rfl := Option.some.inj (points.symm.trans points')
          cases lost.symm.trans held
      have same : names.redirect a = a := by simp [Renaming.redirect, points, received.renames_none missing]
      rw [text_eq _ found, same, textOf, textOf, points]
      simp [resolve?, missing, missing']

theorem spanned_new {first last : Handle} {handles : List Handle} (spanned : source.Spanned first last handles) :
    after.Spanned (names.apply first) (names.apply last) (handles.map names.apply) := by
  obtain ⟨owner, held, inside, begins, ends⟩ := spanned
  obtain rfl : owner = source := by
    have known := mem_ids_of_owner? held
    rw [received.lone.ids, List.mem_singleton] at known
    exact Option.some.inj (held.symm.trans (owner?_top known))
  have within : handles.map names.apply <:+: after.entries.map (·.1) := by
    rw [handles_view] at inside ⊢
    rw [received.now, List.map_append, List.map_append, handles_renamed received.named]
    exact (inside.map _).trans ⟨_, _, List.append_assoc ..⟩
  have top : (names.apply first).chain = after.chain.id := by
    have member : names.apply first ∈ after.view.map (·.1) := by
      rw [← handles_view]
      exact within.subset (List.mem_map_of_mem (List.mem_of_head? begins))
    obtain ⟨piece, listed, same⟩ := List.mem_map.mp member
    exact same ▸ received.tidy'.sound.chain_of_view listed
  exact ⟨after, owner?_top top, within, by simp [begins], by simp [ends]⟩

end Received

/-! ### Moves -/

/-- A range whose last piece does not precede its first can be erased. -/
theorem Sound.erase_ok (sound : s.Sound) {front middle back : List Piece} (split : s.view = front ++ (middle ++ back))
    {first last : Handle} (spans : Spans first last middle) : ∃ after, s.erase first last = .ok after := by
  obtain ⟨piece, _, rfl, rfl⟩ := spans.first
  have own : piece.1.chain = s.chain.id := sound.chain_of_view (by simp [split])
  have ranged := sound.rangeHandles_ok split spans
  simp [TokenStream.erase, checkedOwner, own, ranged, bind, Except.bind, pure, Except.pure]

private theorem Lone.moveAll_eq (lone : source.Lone) (nonempty : source.view ≠ []) (s : TokenStream)
    (before : Option Handle) :
    ∃ first last handles, (source.adoptNewlines s).rangeHandles first last = .ok handles ∧
      s.moveAll before source = s.moveRange before (source.adoptNewlines s) first last := by
  obtain ⟨adopted, _, _, view⟩ := lone.sound.adoptNewlines s
  have filled : (source.adoptNewlines s).view ≠ [] := by simpa [view] using nonempty
  obtain ⟨first, begins⟩ : ∃ first, (source.adoptNewlines s).view.head? = some first :=
    ⟨_, List.head?_eq_some_head filled⟩
  obtain ⟨last, ends⟩ : ∃ last, (source.adoptNewlines s).view.getLast? = some last :=
    ⟨_, List.getLast?_eq_some_getLast filled⟩
  have whole : (source.adoptNewlines s).view = [] ++ ((source.adoptNewlines s).view ++ []) := by simp
  refine ⟨first.1, last.1, _, adopted.rangeHandles_ok whole ⟨by simp [begins], by simp [ends]⟩, ?_⟩
  simp [TokenStream.moveAll, adopted.ends.1, adopted.ends.2, begins, ends]

/-- A stream of its own can be moved to the end, and to before any token of the stream itself. -/
theorem Tidy.moveAll_ok (tidy : s.Tidy) (lone : source.Lone) (nonempty : source.view ≠ []) {before : Option Handle}
    (live : ∀ h ∈ before, h ∈ s.view.map (·.1)) : ∃ names after left,
    s.moveAll before source = (.ok (names, after), left) := by
  obtain ⟨position, checked⟩ : ∃ position, s.checkedPosition before = .ok position := by
    cases before with
    | none => exact ⟨none, rfl⟩
    | some h =>
      obtain ⟨piece, member, rfl⟩ := List.mem_map.mp (live h rfl)
      obtain ⟨entry, stored, rfl⟩ := List.mem_map.mp member
      have named : s.chain.index? entry.1 = some entry.1.index :=
        (tidy.sound.chain.index?_eq_some _ _).mpr ⟨rfl, entry.2, stored⟩
      refine ⟨some entry.1.index, ?_⟩
      simp [TokenStream.checkedPosition, checkedIndex, piece, named, bind, Except.bind, pure, Except.pure]
  obtain ⟨first, last, handles, ranged, same⟩ := lone.moveAll_eq nonempty s before
  rw [same, TokenStream.moveRange, checked, ranged]
  exact ⟨_, _, _, rfl⟩

/-- Nothing can be moved to before a token that is not in the stream itself. -/
theorem Tidy.moveAll_misplaced (tidy : s.Tidy) (lone : source.Lone) (nonempty : source.view ≠ [])
    (away : h.chain ≠ s.chain.id) : (s.moveAll (some h) source).1 = .error (.invalidHandle h) := by
  have missing : s.chain.index? h = none := Option.eq_none_iff_forall_ne_some.mpr fun index found => by
    obtain ⟨_, token, stored⟩ := (tidy.sound.chain.index?_eq_some h index).mp found
    exact away (tidy.sound.chain.chain_eq stored)
  have checked : s.checkedPosition (some h) = .error (.invalidHandle h) := by
    simp [TokenStream.checkedPosition, checkedIndex, missing, bind, Except.bind]
  obtain ⟨first, last, handles, ranged, same⟩ := lone.moveAll_eq nonempty s (some h)
  rw [same, TokenStream.moveRange, checked]

theorem Tidy.moveAll_received (tidy : s.Tidy) (lone : source.Lone) (nonempty : source.view ≠ [])
    {before : Option Handle} {left : TokenStream}
    (done : s.moveAll before source = (.ok (names, after), left)) : ∃ ahead new behind,
    Received s source after names ahead new behind ∧ behind.head?.map (·.1) = before := by
  obtain ⟨tidy', _⟩ := tidy.moveAll lone nonempty done
  obtain ⟨_, _, id, _, total, new, pairs, carried, _, arrival⟩ :=
    tidy.sound.moveAll lone.sound (by simp [lone.ids]) done
  obtain ⟨ahead, behind, into, place, view⟩ := arrival.resolve_left fun nothing => nonempty nothing.1
  refine ⟨ahead, new, behind, ⟨⟨tidy, tidy', id, into, view⟩, lone, fun i member => ?_, pairs, carried⟩, place⟩
  have counted : 0 < s.ids.count i + source.ids.count i := by
    have here := List.count_pos_iff.mpr member
    have both := total i
    omega
  exact (Nat.add_pos_iff_pos_or_pos.mp counted).imp List.count_pos_iff.mp List.count_pos_iff.mp

/-! ### Exchanges -/

/-- The pieces of a stream of its own came in front of a range, and then the range went. -/
structure Exchange (s source joined after : TokenStream) (names : Renaming)
    (front new middle back : List Piece) : Prop where
  received : Received s source joined names front new (middle ++ back)
  narrowed : Narrowed joined after (front ++ new) middle back

theorem Tidy.exchange_parts (tidy : s.Tidy) (lone : source.Lone) (nonempty : source.view ≠ []) {first last : Handle}
    (own : first.chain = s.chain.id)
    (done : (s.exchange first last source).1 = .ok (names, after)) : ∃ joined front new middle back,
    Exchange s source joined after names front new middle back ∧ Spans first last middle := by
  obtain ⟨joined, left, moved, erased⟩ := exchange_steps done
  obtain ⟨ahead, new, behind, received, place⟩ := tidy.moveAll_received lone nonempty moved
  obtain ⟨_, id, _, front, middle, back, split, spans, stays⟩ :=
    received.tidy'.sound.erase received.tidy'.distinct (own.trans received.own.symm) erased
  obtain ⟨tidy', _⟩ := received.tidy'.erase_spots erased
  -- The range begins where what came ends.
  obtain ⟨start, rest, rfl, named⟩ := spans.first
  obtain ⟨next, more, rfl, named'⟩ : ∃ next more, behind = next :: more ∧ next.1 = first := by
    cases behind with
    | nil => cases place
    | cons next more => exact ⟨next, more, rfl, by simpa using place⟩
  have whole : front ++ start :: (rest ++ back) = (ahead ++ new) ++ next :: more := by
    simpa [received.now] using split.symm
  have nodup := received.tidy'.sound.handles_nodup
  rw [split] at nodup
  obtain ⟨rfl, rfl, rfl⟩ := split_unique nodup whole (named.trans named'.symm)
  exact ⟨joined, ahead, new, _, back, ⟨received, ⟨received.tidy', tidy', id, by simpa using split, stays⟩⟩, spans⟩

namespace Exchange

variable {front new middle back : List Piece} (exchange : Exchange s source joined after names front new middle back)
include exchange

/-- A token that is still there has the text that it had. -/
theorem text (stored : s.get? h = some a) (firm : s.Firm a) (alive : (after.get? h).isSome)
    (leads : ∀ target, a.literal.aliasTarget? = some target →
    (after.get? target).isSome) : after.text h = s.text h := by
  obtain ⟨b, still⟩ := Option.isSome_iff_exists.mp alive
  have firm' : joined.Firm a := fun target points => by
    obtain ⟨c, held, plain⟩ := firm target points
    exact ⟨c, exchange.received.get? held, plain⟩
  rw [exchange.narrowed.text still (exchange.received.get? stored) firm' leads, exchange.received.text stored firm]

/-- A token that is written by its own literal comes with its text. -/
theorem text_new (stored : source.get? h = some a) (word : a.kind ≠ .newLine) (plain : Plain a)
    (alive : (after.get? (names.apply h)).isSome) : after.text (names.apply h) = source.text h := by
  obtain ⟨b, still⟩ := Option.isSome_iff_exists.mp alive
  have arrived := exchange.received.arrives_plain stored word plain
  have own : ∀ target, a.literal.aliasTarget? ≠ some target := by simp [show a.literal.aliasTarget? = none from plain]
  rw [exchange.narrowed.text still arrived (fun target points => absurd points (own target))
    fun target points => absurd points (own target)]
  rw [text_eq _ arrived, text_eq _ stored, textOf_plain _ plain, textOf_plain _ plain]

/-- A range that lies before or behind stays a range. -/
theorem spanned {first last : Handle} {handles : List Handle} (spanned : s.Spanned first last handles)
    (alive : (after.get? first).isSome)
    (aside : first.chain = s.chain.id → handles <:+: front.map (·.1) ∨ handles <:+: back.map (·.1)) :
    after.Spanned first last handles := by
  have between := exchange.received.spanned spanned fun top => (aside top).imp_right fun late => by
    rw [List.map_append]
    exact late.trans (List.suffix_append _ _).isInfix
  refine exchange.narrowed.spanned between alive fun top => ?_
  refine (aside (top.trans exchange.received.own)).imp_left fun early => ?_
  rw [List.map_append]
  exact early.trans (List.prefix_append _ _).isInfix

end Exchange

/-- A range of the stream itself can be exchanged. -/
theorem Tidy.exchange_ok (tidy : s.Tidy) (lone : source.Lone) (nonempty : source.view ≠ []) {first last : Handle}
    {handles : List Handle} (own : first.chain = s.chain.id) (found : s.rangeHandles first last = .ok handles) :
    ∃ names after, (s.exchange first last source).1 = .ok (names, after) := by
  obtain ⟨front, middle, back, split, _, spans⟩ := tidy.sound.rangeHandles own found
  have live : ∀ h ∈ some first, h ∈ s.view.map (·.1) := by
    obtain ⟨piece, rest, rfl, rfl⟩ := spans.first
    rintro h ⟨⟩
    simp [split]
  obtain ⟨names, joined, left, moved⟩ := tidy.moveAll_ok lone nonempty live
  obtain ⟨sound, _, _, _, _, arrived⟩ := tidy.sound.moveAll lone.sound (by simp [lone.ids]) moved
  obtain ⟨_, _, _, _, view⟩ := tidy.sound.joined_view split spans arrived
  obtain ⟨after, erased⟩ := sound.erase_ok view spans
  exact ⟨names, after, by simp [TokenStream.exchange, found, moved, erased, bind, Except.bind, pure, Except.pure]⟩

/-- A range that is not in the stream itself cannot be exchanged. -/
theorem Tidy.exchange_misplaced (tidy : s.Tidy) (lone : source.Lone) (nonempty : source.view ≠ []) {first last : Handle}
    {handles : List Handle} (away : first.chain ≠ s.chain.id) (found : s.rangeHandles first last = .ok handles) :
    (s.exchange first last source).1 = .error (.invalidHandle first) := by
  have failed := tidy.moveAll_misplaced lone nonempty away
  rcases run : s.moveAll (some first) source with ⟨result, left⟩
  rw [run] at failed
  subst failed
  simp [TokenStream.exchange, found, run]

end YaraRules.TokenStream

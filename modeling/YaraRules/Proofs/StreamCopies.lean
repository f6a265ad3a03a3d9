import YaraRules.Proofs.StreamArrivals

/-! Copies of ranges. A range of tokens is copied into a stream of its own. Its aliases lead
to the copies where they led into the range; what else they led to is not in that stream,
so their text is gone when the copies arrive somewhere else. -/

namespace YaraRules.TokenStream

variable {s source copy after owner : TokenStream} {names names' : Renaming} {first last h : Handle}
  {handles : List Handle} {a : Token} {id : ChainId}

/-- A stream of its own holds copies of the tokens of a range. -/
structure Copies (source copy : TokenStream) (names : Renaming) (first last : Handle)
    (handles : List Handle) : Prop where
  lone : copy.Lone
  spanned : source.Spanned first last handles
  named : copy.view.map (·.1) = handles.map names.apply
  arrives : ∀ h ∈ handles, ∀ a, source.get? h = some a → copy.get? (names.apply h) = some (names.redirect a)
  renames : ∀ h ∈ handles, names.get? h = some (names.apply h)
  others : ∀ h, h ∉ handles → names.get? h = none

/-- What is copied is a range, and the copies are all that the new stream holds. -/
theorem Sound.copies (sound : source.Sound) (held : source.owner? first.chain = some owner)
    (done : source.copyRange id first last = .ok (names, copy)) :
    copy.chain.id = id ∧ ∃ handles, Copies source copy names first last handles := by
  rw [copyRange_owner held] at done
  have own : first.chain = owner.chain.id := (id_of_owner? held).symm
  obtain ⟨sound', ids, named, front, middle, back, split, spans, pairs, contents⟩ :=
    (sound.owner? held).copyRange own done
  have lone : copy.Lone := ⟨sound', by rw [ids, named]⟩
  have lengths : middle.length = copy.view.length := by simpa using (congrArg List.length contents).symm
  have once := (sound.owner? held).handles_nodup
  rw [split, List.map_append, List.map_append] at once
  have each := apply_renamed pairs (List.nodup_append'.mp (List.nodup_append'.mp once).2.1).1 lengths
  have keys := keys_renamed pairs lengths
  have within : middle.map (·.1) <:+: owner.entries.map (·.1) := by
    rw [handles_view, split, List.map_append, List.map_append, ← List.append_assoc]
    exact ⟨_, _, rfl⟩
  refine ⟨named, middle.map (·.1), lone, ⟨owner, held, within, by simpa using spans.1, by simpa using spans.2⟩,
    handles_renamed each, fun h member a stored => ?_, fun h member => get?_renamed (keys ▸ member),
    fun h absent => lookup_of_not_mem (keys ▸ absent)⟩
  obtain ⟨piece, inside, rfl⟩ := List.mem_map.mp member
  -- A piece of the range holds what is looked up under its handle.
  obtain rfl : piece.2.1 = a := by
    obtain ⟨ahead, behind, rfl⟩ := List.append_of_mem inside
    have place : owner.view = (front ++ ahead) ++ piece :: (behind ++ back) := by simp [split]
    have within : source.owner? piece.1.chain = some owner := by
      rw [(sound.owner? held).chain_of_view (by simp [split]), ← own, held]
    exact Option.some.inj ((sound.beside within place).2.symm.trans stored)
  have same : List.Forall₂ (fun piece piece' : Piece => piece'.1 = names.apply piece.1 ∧
      piece'.2 = (names.redirect piece.2.1, none)) middle copy.view := by
    have equal := List.forall₂_eq_eq_eq ▸ contents
    rw [List.forall₂_map_left_iff, List.forall₂_map_right_iff] at equal
    have tokens := List.forall₂_iff_zip.mp equal.flip
    have handles := List.forall₂_iff_zip.mp each
    exact List.forall₂_iff_zip.mpr ⟨handles.1, fun pair => ⟨handles.2 pair, tokens.2 pair⟩⟩
  obtain ⟨piece', copied, arrived, token⟩ := mem_of_forall₂ same.flip inside
  rw [lone.get?_eq_some, ← arrived, ← token]
  exact copied

namespace Copies

variable (copies : Copies source copy names first last handles)
include copies

/-- A range within the one that was copied is copied as a range. -/
theorem spanned_part (sound : source.Sound) {first' last' : Handle} {part : List Handle}
    (spanned : source.Spanned first' last' part) (held : first' ∈ handles) (held' : last' ∈ handles) :
    copy.Spanned (names.apply first') (names.apply last') (part.map names.apply) ∧ part ⊆ handles := by
  obtain ⟨same, _⟩ := copies.spanned.stored sound held
  obtain ⟨owner, owned, inside, begins, ends⟩ := spanned
  obtain ⟨owner', owned', inside', _⟩ := copies.spanned
  obtain rfl : owner = owner' := Option.some.inj (owned.symm.trans (same ▸ owned'))
  have once := (sound.owner? owned).handles_nodup
  rw [← handles_view] at once
  have within := infix_within once inside inside' begins ends held held'
  have top : (names.apply first').chain = copy.chain.id := by
    obtain ⟨piece, listed, named⟩ := List.mem_map.mp (copies.named ▸ List.mem_map_of_mem held)
    exact named ▸ copies.lone.sound.chain_of_view listed
  refine ⟨⟨copy, owner?_top top, ?_, by simp [begins], by simp [ends]⟩, within.subset⟩
  rw [handles_view, copies.named]
  exact within.map _

theorem arrives_plain (member : h ∈ handles) (stored : source.get? h = some a) (plain : Plain a) :
    copy.get? (names.apply h) = some a := by
  rw [copies.arrives h member a stored, Renaming.redirect, show a.literal.aliasTarget? = none from plain]
  rfl

theorem text_plain (member : h ∈ handles) (stored : source.get? h = some a) (plain : Plain a) :
    copy.text (names.apply h) = source.text h := by
  rw [text_eq _ (copies.arrives_plain member stored plain), text_eq _ stored, textOf_plain _ plain,
    textOf_plain _ plain]

section

variable {s : TokenStream} {ahead new behind : List Piece} (received : Received s copy after names' ahead new behind)
  (member : h ∈ handles) (stored : source.get? h = some a) (word : a.kind ≠ .newLine) {target : Handle}
  (points : a.literal.aliasTarget? = some target)
include received member stored word points

/-- An alias into the range comes over with its text. -/
theorem text_inside (held : target ∈ handles) {b : Token} (found : source.get? target = some b) (plain : Plain b)
    (line : b.kind ≠ .newLine) : after.text (names'.apply (names.apply h)) = source.text h := by
  have there := copies.arrives_plain held found plain
  have here := copies.arrives h member a stored
  have redirected : names.redirect a = { a with literal := .ofAlias (names.apply target) } := by
    simp [Renaming.redirect, points, copies.renames target held]
  rw [redirected] at here
  rw [received.text_new here word fun other leads => ?_, text_eq _ here, text_eq _ stored,
    textOf_alias _ rfl there plain, textOf_alias _ points found plain]
  obtain rfl : names.apply target = other := Option.some.inj leads
  exact .inl ⟨b, there, plain, line⟩

/-- An alias that leads out of the range has no text where the copies arrive. -/
theorem text_outside (absent : target ∉ handles) (foreign : target.chain ∉ s.ids) (outside : target.chain ∉ copy.ids) :
    after.text (names'.apply (names.apply h)) = writtenAs a.kind "" := by
  have here := copies.arrives h member a stored
  have same : names.redirect a = a := by simp [Renaming.redirect, points, copies.others target absent]
  rw [same] at here
  have missing : copy.get? target = none := Option.eq_none_iff_forall_ne_some.mpr fun b held =>
    outside (mem_ids_of_get? held)
  rw [received.text_new here word fun other leads => ?_, text_eq _ here, textOf, points]
  · simp [resolve?, missing]
  · obtain rfl : target = other := Option.some.inj (points.symm.trans leads)
    exact .inr ⟨foreign, outside⟩

end

end Copies

end YaraRules.TokenStream

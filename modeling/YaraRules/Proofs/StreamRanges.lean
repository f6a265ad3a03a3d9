import YaraRules.Proofs.StreamViews

/-! Ranges of pieces and their removal. A range runs from one handle to another in the
same stream, there is at most one, and erasing it leaves all other pieces in place. -/

namespace YaraRules.TokenStream

/-- The pieces run from one handle to another. -/
def Spans (first last : Handle) (pieces : List Piece) : Prop :=
  pieces.head?.map (·.1) = some first ∧ pieces.getLast?.map (·.1) = some last

theorem Sound.range {s : TokenStream} (sound : s.Sound) {first last : Handle} {entries : List (Handle × Token)}
    (own : first.chain = s.chain.id) (found : s.range first last = .ok entries) :
    (∃ front back, s.chain.entries = front ++ (entries ++ back) ∧ entries.head?.map (·.1) = some first ∧
      entries.getLast?.map (·.1) = some last) ∨ last ∉ entries.map (·.1) := by
  unfold TokenStream.range checkedOwner checkedIndex at found
  rw [own, owner?_self] at found
  cases start : s.chain.index? first with
  | none => simp [start, bind, Except.bind] at found
  | some index =>
  cases stop : s.chain.index? last with
  | none => simp [start, stop, bind, Except.bind] at found
  | some index' =>
    have walked : s.chain.walk (some index') s.chain.slots.size (some index) = entries := by
      simpa [start, stop, bind, Except.bind, pure, Except.pure, Chain.entriesBetween] using found
    obtain ⟨rfl, token, member⟩ := (sound.chain.index?_eq_some first index).mp start
    obtain ⟨rfl, token', member'⟩ := (sound.chain.index?_eq_some last index').mp stop
    obtain ⟨front, rest, split⟩ := List.append_of_mem member
    by_cases follows : (last, token') ∈ (first, token) :: rest
    · left
      obtain ⟨middle, back, parts⟩ := List.append_of_mem follows
      have between := sound.chain.entriesBetween (parts ▸ split)
      have begins : Chain.Sound.frontSlot (middle ++ (last, token') :: back) = some first.index := by
        rw [← parts]
        rfl
      rw [begins] at between
      have same : entries = middle ++ [(last, token')] := walked.symm.trans between
      refine ⟨front, back, ?_, ?_, ?_⟩
      · rw [split, parts, same]
        simp
      · rw [same]
        cases middle with
        | nil => simp [← (List.cons.inj parts).1]
        | cons piece more => simp [← (List.cons.inj parts).1]
      · simp [same]
    · right
      have outside : ∀ entry ∈ (first, token) :: rest, some last.index ≠ some (Chain.slotOf entry) := by
        intro entry inside same
        have equal := sound.chain.entry_unique (show entry ∈ s.chain.entries by simp [split, inside]) member'
          (Option.some.inj same).symm
        exact follows (equal ▸ inside)
      have onward := sound.chain.entriesFrom split outside
      have same : entries = (first, token) :: rest := walked.symm.trans onward
      rw [same]
      intro listed
      obtain ⟨entry, inside, rfl⟩ := List.mem_map.mp listed
      exact outside entry inside rfl

theorem Sound.rangeHandles {s : TokenStream} (sound : s.Sound) {first last : Handle} {handles : List Handle}
    (own : first.chain = s.chain.id) (found : s.rangeHandles first last = .ok handles) :
    ∃ front middle back, s.view = front ++ (middle ++ back) ∧ handles = middle.map (·.1) ∧ Spans first last middle := by
  unfold TokenStream.rangeHandles at found
  cases walked : s.range first last with
  | error e => simp [walked, bind, Except.bind] at found
  | ok entries =>
    simp only [walked, bind, Except.bind] at found
    split_ifs at found with ends
    cases found
    rcases sound.range own walked with ⟨front, back, split, begins, stops⟩ | absent
    · refine ⟨front.map s.piece, entries.map s.piece, back.map s.piece, ?_, ?_, ?_, ?_⟩
      · rw [view, entries_eq, split, List.map_append, List.map_append]
      · rw [List.map_map]
        rfl
      · rw [← begins]
        cases entries <;> rfl
      · rw [List.getLast?_map, ← stops, Option.map_map]
        rfl
    · exact absurd (List.mem_of_getLast? ends) absent

/-- A piece has one place in a list without repeated handles. -/
theorem split_unique {β : Type} {front front' back back' : List (Handle × β)} {piece piece' : Handle × β}
    (nodup : ((front ++ piece :: back).map (·.1)).Nodup) (same : front ++ piece :: back = front' ++ piece' :: back')
    (named : piece.1 = piece'.1) : front = front' ∧ piece = piece' ∧ back = back' := by
  induction front generalizing front' with
  | nil =>
    cases front' with
    | nil => simpa using same
    | cons other rest =>
      obtain ⟨rfl, tail⟩ := List.cons.inj same
      have repeated : piece.1 ∈ back.map (·.1) := by
        rw [tail, named]
        simp
      exact absurd repeated (List.nodup_cons.mp nodup).1
  | cons first rest ih =>
    cases front' with
    | nil =>
      obtain ⟨rfl, tail⟩ := List.cons.inj same
      have repeated : first.1 ∈ (rest ++ piece :: back).map (·.1) := by
        rw [← named]
        simp
      exact absurd repeated (List.nodup_cons.mp nodup).1
    | cons other more =>
      obtain ⟨rfl, tail⟩ := List.cons.inj same
      obtain ⟨rfl, rfl, rfl⟩ := ih (List.nodup_cons.mp nodup).2 tail
      exact ⟨rfl, rfl, rfl⟩

theorem Spans.first {first last : Handle} {pieces : List Piece} (spans : Spans first last pieces) :
    ∃ piece rest, pieces = piece :: rest ∧ piece.1 = first := by
  cases pieces with
  | nil => cases spans.1
  | cons piece rest => exact ⟨piece, rest, rfl, by simpa using spans.1⟩

theorem Spans.last {first last : Handle} {pieces : List Piece} (spans : Spans first last pieces) :
    ∃ rest piece, pieces = rest ++ [piece] ∧ piece.1 = last := by
  rcases List.eq_nil_or_concat pieces with rfl | ⟨rest, piece, rfl⟩
  · cases spans.2
  · exact ⟨rest, piece, by simp, by simpa using spans.2⟩

/-- There is one range from a handle to another. -/
theorem spans_unique {first last : Handle} {front middle back front' middle' back' : List Piece}
    (nodup : ((front ++ (middle ++ back)).map (·.1)).Nodup)
    (same : front ++ (middle ++ back) = front' ++ (middle' ++ back'))
    (spans : Spans first last middle) (spans' : Spans first last middle') :
    front = front' ∧ middle = middle' ∧ back = back' := by
  obtain ⟨start, rest, begins, named⟩ := spans.first
  obtain ⟨start', rest', begins', named'⟩ := spans'.first
  have fronts : front = front' := by
    rw [begins, begins'] at same
    rw [begins] at nodup
    exact (split_unique nodup same (named.trans named'.symm)).1
  subst fronts
  have tails : middle ++ back = middle' ++ back' := List.append_cancel_left same
  have nodup' : ((middle ++ back).map (·.1)).Nodup := by
    rw [List.map_append] at nodup
    exact (List.nodup_append'.mp nodup).2.1
  obtain ⟨most, final, ends, stops⟩ := spans.last
  obtain ⟨most', final', ends', stops'⟩ := spans'.last
  rw [ends, ends', List.append_assoc, List.append_assoc, List.singleton_append, List.singleton_append] at tails
  rw [ends, List.append_assoc, List.singleton_append] at nodup'
  obtain ⟨rfl, rfl, rfl⟩ := split_unique nodup' tails (stops.trans stops'.symm)
  exact ⟨rfl, ends.trans ends'.symm, rfl⟩

/-- A range whose last piece does not precede its first is found. -/
theorem Sound.rangeHandles_ok {s : TokenStream} (sound : s.Sound) {front middle back : List Piece}
    (split : s.view = front ++ (middle ++ back)) {first last : Handle} (spans : Spans first last middle) :
    s.rangeHandles first last = .ok (middle.map (·.1)) := by
  obtain ⟨start, rest, begins, rfl⟩ := spans.first
  obtain ⟨most, final, ends, rfl⟩ := spans.last
  obtain ⟨ahead, others, entries, _, tail⟩ := List.map_eq_append_iff.mp split
  obtain ⟨inside, behind, rfl, middle_eq, _⟩ := List.map_eq_append_iff.mp tail
  obtain ⟨most', last', rfl, most_eq, last_eq⟩ := List.map_eq_append_iff.mp (middle_eq.trans ends)
  obtain ⟨entry, rfl, same⟩ : ∃ entry, last' = [entry] ∧ s.piece entry = final := by
    simpa [List.map_eq_singleton_iff] using last_eq
  have final_handle : entry.1 = final.1 := congrArg (·.1) same
  have split' : s.chain.entries = ahead ++ (most' ++ entry :: behind) := by
    rw [← entries_eq, entries]
    simp
  have between := sound.chain.entriesBetween split'
  have handles : (most' ++ [entry]).map (·.1) = middle.map (·.1) := by
    rw [← middle_eq, List.map_map]
    rfl
  obtain ⟨opening, more, list_eq, start_eq⟩ : ∃ opening more, most' ++ entry :: behind = opening :: more ∧
      s.piece opening = start := by
    rw [begins] at middle_eq
    cases most' with
    | nil => exact ⟨entry, behind, rfl, (List.cons.inj middle_eq).1⟩
    | cons opening more => exact ⟨opening, more ++ entry :: behind, rfl, (List.cons.inj middle_eq).1⟩
  have start_handle : opening.1 = start.1 := congrArg (·.1) start_eq
  have opens : opening ∈ s.chain.entries := by simp [split', list_eq]
  have named : s.chain.index? start.1 = some start.1.index :=
    (sound.chain.index?_eq_some _ _).mpr ⟨rfl, opening.2, start_handle ▸ opens⟩
  have named' : s.chain.index? final.1 = some final.1.index :=
    (sound.chain.index?_eq_some _ _).mpr ⟨rfl, entry.2, final_handle ▸ (by simp [split'])⟩
  have own : start.1.chain = s.chain.id := start_handle ▸ sound.chain.chain_eq opens
  have walked : s.chain.entriesBetween start.1.index final.1.index = most' ++ [entry] := by
    rw [← between, list_eq, Chain.entriesBetween, ← start_handle, ← final_handle]
    rfl
  have ranged : s.range start.1 final.1 = .ok (most' ++ [entry]) := by
    simp [TokenStream.range, checkedOwner, checkedIndex, own, named, named', walked, bind, Except.bind, pure,
      Except.pure]
  simp only [TokenStream.rangeHandles, ranged, bind, Except.bind, handles]
  rw [ends]
  simp [pure, Except.pure]

/-- The piece keeps its place; aliases in it may have become copies of what they stood for. -/
def Stays (s : TokenStream) (old new : Piece) : Prop :=
  new.1 = old.1 ∧ Kept s old.1 old.2.1 new.2.1 ∧ Option.Rel (Alike (Kept s)) old.2.2 new.2.2

private theorem lookup_alike {related : Handle → Token → Token → Prop} (index : Nat) :
    ∀ {nested others : List (Nat × Option TokenStream)}, AlikeAmong related nested others →
    Option.Rel (Alike related) (nested.lookup index).join (others.lookup index).join
  | [], _, rfl => .none
  | (place, some s) :: rest, _, ⟨other, more, rfl, one, among⟩ => by
    have later := lookup_alike index among
    by_cases same : index = place
    · simpa [same] using one
    · simpa [lookup_cons_eq, same] using later
  | (place, none) :: rest, _, ⟨more, rfl, among⟩ => by
    have later := lookup_alike index among
    by_cases same : index = place
    · simp [same]
    · simpa [lookup_cons_eq, same] using later

/-- The streams may be nested in others, where their aliases lead to. -/
theorem Alike.stays {root s after : TokenStream} (alike : Alike (Kept root) s after) :
    List.Forall₂ (Stays root) s.view after.view := by
  unfold view
  rw [List.forall₂_map_left_iff, List.forall₂_map_right_iff]
  refine alike.entries.imp fun old new step => ⟨step.1, step.2, ?_⟩
  have sub := lookup_alike old.1.index alike.nested
  simpa [piece, subAt?, step.1] using sub

theorem Settled.stays {before after : TokenStream} (settled : Settled before after) :
    List.Forall₂ (Stays before) before.view after.view :=
  settled.alike.stays

theorem forall₂_parts {α β : Type} {related : α → β → Prop} {front back : List α} {whole : List β}
    (all : List.Forall₂ related (front ++ back) whole) :
    ∃ front' back', whole = front' ++ back' ∧ List.Forall₂ related front front' ∧ List.Forall₂ related back back' := by
  induction front generalizing whole with
  | nil => exact ⟨[], whole, rfl, .nil, all⟩
  | cons first rest ih =>
    cases all with
    | cons one more =>
      obtain ⟨front', back', rfl, left, right⟩ := ih more
      exact ⟨_ :: front', back', rfl, .cons one left, right⟩

theorem handles_of_stays {s : TokenStream} {pieces others : List Piece} (all : List.Forall₂ (Stays s) pieces others) :
    others.map (·.1) = pieces.map (·.1) := by
  induction all with
  | nil => rfl
  | cons one _ ih => simp [one.1, ih]

/-- The pieces from `first` to `last` left the stream, and all others stayed. -/
def Erased (s : TokenStream) (first last : Handle) (after : TokenStream) : Prop :=
  ∃ front middle back, s.view = front ++ (middle ++ back) ∧ Spans first last middle ∧
    List.Forall₂ (Stays s) (front ++ back) after.view

theorem Sound.erase {s after : TokenStream} (sound : s.Sound) (distinct : s.ids.Nodup) {first last : Handle}
    (own : first.chain = s.chain.id) (done : s.erase first last = .ok after) :
    after.Sound ∧ after.chain.id = s.chain.id ∧ (∀ id, after.ids.count id ≤ s.ids.count id) ∧
      Erased s first last after := by
  unfold TokenStream.erase checkedOwner at done
  rw [own, owner?_self] at done
  cases found : s.rangeHandles first last with
  | error e => simp [found, bind, Except.bind] at done
  | ok handles =>
    obtain ⟨front, middle, back, split, rfl, spans⟩ := sound.rangeHandles own found
    have settled := (Settled.refl sound distinct).detachAliases sound distinct (middle.map (·.1))
    have id : (s.detachAliases (middle.map (·.1))).chain.id = s.chain.id := settled.alike.id_eq
    have done : (s.detachAliases (middle.map (·.1))).dropAll (middle.map (·.1)) = after := by
      simpa [found, bind, Except.bind, pure, Except.pure, ← id] using done
    have stays := settled.stays
    rw [split] at stays
    obtain ⟨front', rest, split', left, others⟩ := forall₂_parts stays
    obtain ⟨middle', back', rfl, gone, right⟩ := forall₂_parts others
    have dropped := settled.sound.dropAll split'
    rw [handles_of_stays gone, done, settled.alike.ids_eq, id] at dropped
    obtain ⟨sound', view, id', counted⟩ := dropped
    exact ⟨sound', id', counted, front, middle, back, split, spans, view ▸ List.rel_append left right⟩

end YaraRules.TokenStream

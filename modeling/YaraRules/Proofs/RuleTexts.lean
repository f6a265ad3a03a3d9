import YaraRules.Proofs.NodeRanges
import YaraRules.Proofs.StreamSplices

/-! Texts of rules. The text of a rule is made of the texts of its tokens and of the ranges
that its modifiers span. Where those read the same, maybe under other handles, the rule
does, apart from its condition. -/

namespace YaraRules

variable {s after : TokenStream} {f : Handle → Handle}

/-! ### Strings -/

private theorem HexUnit.boundText_map {bound : Option Handle} (words : ∀ h ∈ bound, after.text (f h) = s.text h) :
    boundText after (bound.map f) = boundText s bound := by
  cases bound with
  | none => rfl
  | some h => exact words h rfl

mutual

private theorem HexUnit.text_mapHandles : ∀ u : HexUnit, (∀ h ∈ u.handles, after.text (f h) = s.text h) →
    (u.mapHandles f).text after = u.text s
  | .byte token, words => words token (by simp [HexUnit.handles])
  | .jump _ low dash high _, words => by
    have lower : boundText after (low.map f) = boundText s low :=
      boundText_map fun h held => words h (by simp_all [HexUnit.handles])
    have upper : boundText after (high.map f) = boundText s high :=
      boundText_map fun h held => words h (by simp_all [HexUnit.handles])
    cases dash <;> simp [HexUnit.mapHandles, HexUnit.text, lower, upper]
  | .alternation _ alternatives _, words => by
    have below := HexUnit.alternativeTexts_mapHandles alternatives fun h held =>
      words h (by simp [HexUnit.handles, held])
    simp [HexUnit.mapHandles, HexUnit.text, below]

private theorem HexUnit.texts_mapHandles :
    ∀ us : List HexUnit, (∀ h ∈ HexUnit.handlesAll us, after.text (f h) = s.text h) →
    HexUnit.texts after (HexUnit.mapHandlesAll f us) = HexUnit.texts s us
  | [], _ => rfl
  | u :: rest, words => by
    have first := HexUnit.text_mapHandles u fun h held => words h (by simp [HexUnit.handlesAll, held])
    have others := HexUnit.texts_mapHandles rest fun h held => words h (by simp [HexUnit.handlesAll, held])
    simp [HexUnit.mapHandlesAll, HexUnit.texts, first, others]

private theorem HexUnit.alternativeTexts_mapHandles : ∀ us : List (List HexUnit),
    (∀ h ∈ HexUnit.handlesAmong us, after.text (f h) = s.text h) →
      HexUnit.alternativeTexts after (HexUnit.mapHandlesAmong f us) = HexUnit.alternativeTexts s us
  | [], _ => rfl
  | units :: rest, words => by
    have first := HexUnit.texts_mapHandles units fun h held => words h (by simp [HexUnit.handlesAmong, held])
    have others := HexUnit.alternativeTexts_mapHandles rest fun h held => words h (by simp [HexUnit.handlesAmong, held])
    simp [HexUnit.mapHandlesAmong, HexUnit.alternativeTexts, first, others]

end

private theorem HexString.text_mapHandles (string : HexString)
    (words : ∀ h ∈ string.handles, after.text (f h) = s.text h) : (string.mapHandles f).text after = string.text s := by
  obtain ⟨opening, units, closing⟩ := string
  have inside := HexUnit.texts_mapHandles units fun h held => words h (by simp [HexString.handles, held])
  cases units with
  | nil => rfl
  | cons unit rest =>
    simpa [HexString.text, HexString.mapHandles, HexUnit.mapHandlesAll] using congrArg (" ".intercalate ·) inside

/-- The modifier with other handles for its tokens. -/
abbrev StringModifier.mapHandles (f : Handle → Handle) (m : StringModifier) : StringModifier :=
  ⟨m.kind, f m.first, f m.last⟩

/-- A modifier reads as the tokens that it spans. -/
theorem StringModifier.text_of_spanned {m : StringModifier} (sound : s.Sound) {handles : List Handle}
    (spanned : s.Spanned m.first m.last handles) : m.text s = "".intercalate (handles.map s.text) := by
  obtain ⟨entries, found, rfl⟩ := spanned.range sound
  rw [text, found, List.map_map]
  rfl

private theorem StringDefinition.text_mapHandles (string : StringDefinition)
    (words : ∀ h ∈ string.row, after.text (f h) = s.text h)
    (spans : ∀ m ∈ string.modifiers, (m.mapHandles f).text after = m.text s) :
    (string.mapHandles f).text after = string.text s := by
  obtain ⟨id, assign, content, modifiers⟩ := string
  have id_text : after.text (f id) = s.text id := words id (by simp [row])
  have value : valueText (mapHandles f ⟨id, assign, content, modifiers⟩) after =
      valueText ⟨id, assign, content, modifiers⟩ s := by
    cases content with
    | plain token => exact words token (by simp [row, StringContent.handles])
    | hex string => exact string.text_mapHandles fun h held => words h (by simp [row, StringContent.handles, held])
    | regexp token _ => exact words token (by simp [row, StringContent.handles])
  have texts : modifiersText (mapHandles f ⟨id, assign, content, modifiers⟩) after =
      modifiersText ⟨id, assign, content, modifiers⟩ s := by
    unfold modifiersText
    rw [mapHandles, List.map_map]
    exact congrArg _ (List.map_congr_left spans)
  have bare : (mapHandles f ⟨id, assign, content, modifiers⟩).modifiers.isEmpty = modifiers.isEmpty := by
    simp [mapHandles]
  unfold text
  rw [value, texts, bare]
  simp only [name, mapHandles, id_text]

/-! ### Rules -/

namespace Rule

/-- The rule on lines of its own, with a given text for its condition. -/
def textHaving (rule : Rule) (tokens : TokenStream) (condition : String) : String :=
  let modifiers := "".intercalate (rule.modifiers.map fun h => tokens.text h ++ " ")
  let tags := if rule.tags.isEmpty then "" else " : " ++ " ".intercalate (rule.tagTexts tokens)
  let entries (title : String) (texts : List String) : String :=
    if texts.isEmpty then ""
    else "\t" ++ title ++ ":\n" ++ "".intercalate (texts.map fun t => "\t\t" ++ t ++ "\n")
  modifiers ++ "rule " ++ rule.nameText tokens ++ tags ++ " \x7b\n" ++
    entries "meta" (rule.metas.map (·.text tokens)) ++
    entries "strings" (rule.strings.values.map (·.text tokens)) ++
    "\tcondition:\n\t\t" ++ condition ++ "\n\x7d"

theorem textHaving_condition (r : Rule) (e : Expr) : { r with condition := e }.textHaving = r.textHaving := rfl

theorem text_eq (r : Rule) (tokens : TokenStream) : r.text tokens = r.textHaving tokens (r.condition.text tokens) := rfl

/-- What comes before the condition of a rule reads in one stream as in another, under other handles. -/
structure Reads (f : Handle → Handle) (s after : TokenStream) (r : Rule) : Prop where
  words : ∀ h ∈ r.headRow, after.text (f h) = s.text h
  spans : ∀ string ∈ r.strings.values, ∀ m ∈ string.modifiers, (m.mapHandles f).text after = m.text s

theorem Reads.textHaving {r : Rule} (reads : r.Reads f s after) (condition : String) :
    (r.mapHandles f).textHaving after condition = r.textHaving s condition := by
  have words (part : List Handle) (inside : part ⊆ r.headRow) : ∀ h ∈ part, after.text (f h) = s.text h :=
    fun h held => reads.words h (inside held)
  have modifiers : (r.modifiers.map f).map (fun h => after.text h ++ " ") = r.modifiers.map
      fun h => s.text h ++ " " := by
    rw [List.map_map]
    exact List.map_congr_left fun h held => congrArg (· ++ " ") (words r.modifiers (by simp [headRow]) h held)
  have name : after.text (f r.name) = s.text r.name := reads.words r.name (by simp [headRow])
  have tags : (r.tags.map f).map after.text = r.tags.map s.text := by
    rw [List.map_map]
    exact List.map_congr_left (words r.tags fun h held => by simp [headRow, tagRow, held])
  have metas : (r.metas.map (·.mapHandles f)).map (·.text after) = r.metas.map (·.text s) := by
    rw [List.map_map]
    refine List.map_congr_left fun entry member => ?_
    have tokens := words entry.handles fun h held => by
      simp only [headRow, metaRow, List.mem_append, List.mem_flatMap]
      exact .inr (.inr (.inr (.inr (.inl (.inr ⟨entry, member, held⟩)))))
    simp only [Function.comp_apply, MetaEntry.text, MetaEntry.keyText, MetaEntry.mapHandles]
    rw [tokens entry.key (by simp [MetaEntry.handles]), tokens entry.value (by simp [MetaEntry.handles])]
  have strings : (r.strings.mapValues (·.mapHandles f)).values.map (·.text after) =
      r.strings.values.map (·.text s) := by
    rw [NameTrie.values_mapValues, List.map_map]
    refine List.map_congr_left fun string member =>
      string.text_mapHandles (fun h held => ?_) (reads.spans string member)
    refine reads.words h ?_
    simp only [headRow, stringRow, List.mem_append, List.mem_flatMap]
    exact .inr (.inr (.inr (.inr (.inr (.inr ⟨string, member, held⟩)))))
  simp only [Rule.textHaving, mapHandles, nameText, tagTexts, modifiers, name, tags, metas, strings, List.isEmpty_map]

/-- A rule reads the same where its tokens do. -/
theorem Reads.textHaving_same {r : Rule} (reads : r.Reads id s after) (condition : String) :
    r.textHaving after condition = r.textHaving s condition := by
  have itself : r.Reads id after after := ⟨fun _ _ => rfl, fun _ _ _ _ => rfl⟩
  rw [← itself.textHaving, reads.textHaving]

theorem Reads.text_same {r : Rule} (reads : r.Reads id s after)
    (words : ∀ h ∈ r.condition.handles, after.text h = s.text h) : r.text after = r.text s := by
  rw [text_eq, text_eq, reads.textHaving_same, Expr.text, r.condition.textWith_congr words]
  rfl

end Rule

end YaraRules

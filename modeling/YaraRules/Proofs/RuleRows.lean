import YaraRules.Proofs.ExprHandles
import YaraRules.Proofs.NameTries

/-! Rows of tokens. A rule holds the handles of its tokens in source order; the parts of a
rule hold consecutive parts of its row, and each part begins and ends with the tokens
that are named as its first and its last. -/

namespace YaraRules

/-! ### Conditions -/

namespace Expr

theorem head?_handles (e : Expr) : e.handles.head? = some e.first := by
  induction e using by_children with
  | step e below => cases e <;> simp_all [children, handles, first]

theorem getLast?_handles (e : Expr) : e.handles.getLast? = some e.last := by
  induction e using by_children with
  | step e below => cases e <;> simp_all [children, handles, last, List.getLast?_cons]

theorem handles_ne_nil (e : Expr) : e.handles ≠ [] := by
  intro empty
  have begins := e.head?_handles
  simp [empty] at begins

theorem handles_mapHandles (f : Handle → Handle) (e : Expr) : (e.mapHandles f).handles = e.handles.map f := by
  induction e using by_children with
  | step e below =>
    cases e <;> simp_all [children, handles, mapHandles, handlesAll_eq, mapHandlesAll_eq, List.flatMap_map,
      List.map_flatMap]
    case set => exact List.flatMap_congr below
    case call => exact List.flatMap_congr below.2

/-- The children of a node hold parts of its row, one behind the other. -/
theorem children_sublist (e : Expr) : (e.children.flatMap handles).Sublist e.handles := by
  cases e <;> grind [children, handles, handlesAll_eq]

end Expr

/-! ### Strings -/

theorem HexUnit.handlesAmong_eq (us : List (List HexUnit)) : handlesAmong us = us.flatMap handlesAll := by
  induction us with
  | nil => rfl
  | cons units rest later => rw [handlesAmong, later, List.flatMap_cons]

mutual

theorem HexUnit.handles_mapHandles (f : Handle → Handle) : ∀ u : HexUnit, (u.mapHandles f).handles = u.handles.map f
  | .byte _ => rfl
  | .jump _ low dash high _ => by
    cases low <;> cases dash <;> cases high <;> rfl
  | .alternation _ alternatives _ => by
    simp [HexUnit.mapHandles, HexUnit.handles, HexUnit.handlesAmong_mapHandles f alternatives]

theorem HexUnit.handlesAll_mapHandles (f : Handle → Handle) : ∀ us : List HexUnit,
    HexUnit.handlesAll (HexUnit.mapHandlesAll f us) = (HexUnit.handlesAll us).map f
  | [] => rfl
  | u :: rest => by
    simp [HexUnit.mapHandlesAll, HexUnit.handlesAll, HexUnit.handles_mapHandles f u,
      HexUnit.handlesAll_mapHandles f rest]

private theorem HexUnit.handlesAmong_mapHandles (f : Handle → Handle) : ∀ us : List (List HexUnit),
    HexUnit.handlesAmong (HexUnit.mapHandlesAmong f us) = (HexUnit.handlesAmong us).map f
  | [] => rfl
  | u :: rest => by
    simp [HexUnit.mapHandlesAmong, HexUnit.handlesAmong, HexUnit.handlesAll_mapHandles f u,
      HexUnit.handlesAmong_mapHandles f rest]

end

/-- The first of some tokens and the last, if there is more than one. -/
def spanRow (first last : Handle) : List Handle := if first = last then [first] else [first, last]

theorem spanRow_self (h : Handle) : spanRow h h = [h] := if_pos rfl

theorem spanRow_sublist (first last : Handle) : (spanRow first last).Sublist [first, last] := by
  unfold spanRow
  split_ifs <;> simp

def StringModifier.row (m : StringModifier) : List Handle := spanRow m.first m.last

namespace StringModifier

theorem head?_row (m : StringModifier) : m.row.head? = some m.first := by
  unfold row spanRow
  split_ifs <;> rfl

theorem getLast?_row (m : StringModifier) : m.row.getLast? = some m.last := by
  unfold row spanRow
  split_ifs with same <;> simp [same]

theorem row_mapHandles (f : Handle → Handle) (modifiers : List StringModifier) :
    ((modifiers.map fun m => { m with first := f m.first, last := f m.last : StringModifier }).flatMap row).Sublist
      ((modifiers.flatMap row).map f) := by
  induction modifiers with
  | nil => exact .slnil
  | cons m rest ih =>
    have one : (row ⟨m.kind, f m.first, f m.last⟩).Sublist (m.row.map f) := by
      unfold row spanRow
      split_ifs <;> simp_all
    simp only [List.map_cons, List.flatMap_cons, List.map_append]
    exact one.append ih

end StringModifier

/-- Tokens of a string definition in source order, each once. -/
def StringDefinition.row (s : StringDefinition) : List Handle :=
  [s.id, s.assign] ++ (s.content.handles ++ s.modifiers.flatMap StringModifier.row)

namespace StringDefinition

theorem head?_row (s : StringDefinition) : s.row.head? = some s.first := rfl

theorem getLast?_row (s : StringDefinition) : s.row.getLast? = some s.last := by
  obtain ⟨id, assign, content, modifiers⟩ := s
  unfold row last
  rcases List.eq_nil_or_concat modifiers with rfl | ⟨most, m, rfl⟩
  · cases content <;> simp [StringContent.handles, HexString.handles, List.getLast?_cons]
  · rw [List.concat_eq_append, List.flatMap_append, ← List.append_assoc, ← List.append_assoc, List.getLast?_append]
    simp [m.getLast?_row]

theorem row_mapHandles (f : Handle → Handle) (s : StringDefinition) : (s.mapHandles f).row.Sublist (s.row.map f) := by
  obtain ⟨id, assign, content, modifiers⟩ := s
  have contents : ((mapHandles f ⟨id, assign, content, modifiers⟩).content.handles) = content.handles.map f := by
    cases content <;>
      simp [mapHandles, StringContent.handles, HexString.handles, HexString.mapHandles, HexUnit.handlesAll_mapHandles]
  unfold row
  rw [contents, List.map_append, List.map_append]
  exact List.Sublist.append_left (List.Sublist.append_left (StringModifier.row_mapHandles f modifiers) _) _

private theorem rows_mapHandles (f : Handle → Handle) (strings : List StringDefinition) :
    ((strings.map (·.mapHandles f)).flatMap row).Sublist ((strings.flatMap row).map f) := by
  induction strings with
  | nil => exact .slnil
  | cons s rest ih =>
    simp only [List.map_cons, List.flatMap_cons, List.map_append]
    exact (s.row_mapHandles f).append ih

end StringDefinition

/-- Rows of all strings, in order. -/
def stringRows (strings : NameTrie StringDefinition) : List Handle := strings.values.flatMap StringDefinition.row

theorem stringRows_empty : stringRows {} = [] := rfl

/-! ### Rules -/

/-- Tokens of a section keyword, if there is one. -/
def headerRow (header : Option Section) : List Handle := (header.map Section.handles).getD []

namespace Rule

def tagRow (r : Rule) : List Handle := r.tagColon.toList ++ r.tags

def metaRow (r : Rule) : List Handle := headerRow r.metaSection ++ r.metas.flatMap MetaEntry.handles

def stringRow (r : Rule) : List Handle := headerRow r.stringSection ++ r.strings.values.flatMap StringDefinition.row

def conditionRow (r : Rule) : List Handle := r.conditionSection.handles ++ (r.condition.handles ++ [r.closing])

def bodyRow (r : Rule) : List Handle := [r.opening] ++ (r.metaRow ++ (r.stringRow ++ r.conditionRow))

/-- Tokens that a rule holds, in source order and each once. -/
def row (r : Rule) : List Handle := r.modifiers ++ ([r.keyword, r.name] ++ (r.tagRow ++ r.bodyRow))

/-- Tokens of a rule before those of its condition. -/
def headRow (r : Rule) : List Handle :=
  r.modifiers ++ ([r.keyword, r.name] ++ (r.tagRow ++ ([r.opening] ++ (r.metaRow ++ r.stringRow))))

theorem row_eq (r : Rule) : r.row = r.headRow ++ r.conditionRow := by
  simp [row, bodyRow, headRow]

end Rule

def Import.row (i : Import) : List Handle := [i.keyword, i.name]

namespace Rule

theorem head?_row (r : Rule) : r.row.head? = some r.first := by
  unfold row first
  cases r.modifiers <;> rfl

theorem getLast?_row (r : Rule) : r.row.getLast? = some r.last := by
  unfold row bodyRow conditionRow last
  simp only [← List.append_assoc]
  exact List.getLast?_concat

theorem row_ne_nil (r : Rule) : r.row ≠ [] := by
  intro empty
  have begins := r.head?_row
  simp [empty] at begins

theorem row_around_condition (r : Rule) :
    r.row = (r.headRow ++ r.conditionSection.handles) ++ (r.condition.handles ++ [r.closing]) := by
  simp [row_eq, conditionRow]

theorem condition_sublist (r : Rule) : r.condition.handles.Sublist r.row := by
  rw [row_around_condition]
  exact (List.sublist_append_left _ _).trans (List.sublist_append_right _ _)

theorem headRow_mapHandles (f : Handle → Handle) (r : Rule) : (r.mapHandles f).headRow.Sublist (r.headRow.map f) := by
  have header (s : Option Section) : headerRow (s.map (·.mapHandles f)) = (headerRow s).map f := by
    cases s <;> rfl
  have metas : (r.metas.map (·.mapHandles f)).flatMap MetaEntry.handles =
      (r.metas.flatMap MetaEntry.handles).map f := by
    rw [List.flatMap_map, List.map_flatMap]
    rfl
  have strings : ((r.strings.mapValues (·.mapHandles f)).values.flatMap StringDefinition.row).Sublist
      ((r.strings.values.flatMap StringDefinition.row).map f) := by
    rw [NameTrie.values_mapValues]
    exact StringDefinition.rows_mapHandles f _
  have colon : (r.tagColon.map f).toList = r.tagColon.toList.map f := by cases r.tagColon <;> rfl
  simp only [headRow, tagRow, metaRow, stringRow, mapHandles, header, metas, colon, List.map_append]
  gcongr <;> exact .refl _

theorem row_mapHandles (f : Handle → Handle) (r : Rule) : (r.mapHandles f).row.Sublist (r.row.map f) := by
  have condition : (r.mapHandles f).conditionRow = r.conditionRow.map f := by
    simp [conditionRow, mapHandles, Expr.handles_mapHandles, Section.mapHandles, Section.handles]
  rw [row_eq, row_eq, List.map_append, condition]
  exact (r.headRow_mapHandles f).append_right _

/-- The strings are listed in order and stand under their keyword. -/
structure Filed (r : Rule) : Prop where
  neat : r.strings.Neat
  header : r.stringSection = none → r.strings.values = []

theorem Filed.mapHandles {r : Rule} (filed : r.Filed) (f : Handle → Handle) : (r.mapHandles f).Filed := by
  refine ⟨filed.neat.mapValues _, fun missing => ?_⟩
  have absent : r.stringSection = none := Option.map_eq_none_iff.mp missing
  show (r.strings.mapValues _).values = []
  rw [NameTrie.values_mapValues, filed.header absent, List.map_nil]

end Rule

end YaraRules

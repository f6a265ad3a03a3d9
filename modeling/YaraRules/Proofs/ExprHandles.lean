import Mathlib.Data.List.Basic
import YaraRules.Grammar.Condition

/-! Expressions and rules and the tokens they refer to. Other handles for the tokens leave the shape
of an expression as it is, and its text depends on the words of its own tokens. -/

namespace YaraRules.Expr

mutual

/-- Handles that the expression refers to, in source order. -/
def handles : Expr → List Handle
  | atom _ _ token => [token]
  | regexp _ token _ => [token]
  | stringAt _ id at_ offset => id :: at_ :: offset.handles
  | stringIn _ _ id in_ bounds => id :: in_ :: bounds.handles
  | stringIndexed _ _ id opening i closing => id :: opening :: (i.handles ++ [closing])
  | unary _ _ token operand => token :: operand.handles
  | binary _ _ left token right => left.handles ++ token :: right.handles
  | paren _ opening inner closing => opening :: (inner.handles ++ [closing])
  | range _ opening low dots high closing => opening :: (low.handles ++ dots :: (high.handles ++ [closing]))
  | set _ opening elements closing => opening :: (handlesAll elements ++ [closing])
  | field _ structure_ dot member => structure_.handles ++ [dot, member]
  | index _ array opening i closing => array.handles ++ opening :: (i.handles ++ [closing])
  | call _ function opening args closing => function.handles ++ opening :: (handlesAll args ++ [closing])
  | integerFunction _ function opening arg closing => function :: opening :: (arg.handles ++ [closing])
  | of _ quantifier of_ members => quantifier.handles ++ of_ :: members.handles
  | ofAnchored _ quantifier of_ members keyword anchor =>
    quantifier.handles ++ of_ :: (members.handles ++ keyword :: anchor.handles)
  | forOf _ for_ quantifier of_ members colon body =>
    for_ :: (quantifier.handles ++ of_ :: (members.handles ++ colon :: body.handles))
  | forIn _ for_ quantifier vars in_ iterable colon body =>
    for_ :: (quantifier.handles ++ (vars ++ in_ :: (iterable.handles ++ colon :: body.handles)))
  | percentage _ operand percent => operand.handles ++ [percent]

def handlesAll : List Expr → List Handle
  | [] => []
  | e :: rest => e.handles ++ handlesAll rest

end

section

variable (f : Handle → Handle)

@[simp] theorem type_mapHandles (e : Expr) : (e.mapHandles f).type = e.type := by
  cases e <;> rfl

@[simp] theorem label_mapHandles (e : Expr) : (e.mapHandles f).label = e.label := by
  cases e <;> rfl

theorem mapHandlesAll_eq (es : List Expr) : mapHandlesAll f es = es.map (·.mapHandles f) := by
  induction es with
  | nil => rfl
  | cons e rest later => rw [mapHandlesAll, later, List.map_cons]

theorem textsWith_eq (word : Handle → String) (es : List Expr) : textsWith word es = es.map (·.textWith word) := by
  induction es with
  | nil => rfl
  | cons e rest later => rw [textsWith, later, List.map_cons]

theorem handlesAll_eq (es : List Expr) : handlesAll es = es.flatMap handles := by
  induction es with
  | nil => rfl
  | cons e rest later => rw [handlesAll, later, List.flatMap_cons]

end

mutual

/-- What holds of an expression if it holds of its direct children holds of all. -/
theorem by_children {P : Expr → Prop} (step : ∀ e, (∀ child ∈ e.children, P child) → P e) : ∀ e, P e
  | atom .. | regexp .. => step _ (by simp [children])
  | stringAt _ _ _ offset => step _ (by simpa [children] using by_children step offset)
  | stringIn _ _ _ _ bounds => step _ (by simpa [children] using by_children step bounds)
  | stringIndexed _ _ _ _ i _ => step _ (by simpa [children] using by_children step i)
  | unary _ _ _ operand => step _ (by simpa [children] using by_children step operand)
  | binary _ _ left _ right => step _ (by simpa [children] using ⟨by_children step left, by_children step right⟩)
  | paren _ _ inner _ => step _ (by simpa [children] using by_children step inner)
  | range _ _ low _ high _ => step _ (by simpa [children] using ⟨by_children step low, by_children step high⟩)
  | set _ _ elements _ => step _ (by_children_all step elements)
  | field _ structure_ _ _ => step _ (by simpa [children] using by_children step structure_)
  | index _ array _ i _ => step _ (by simpa [children] using ⟨by_children step array, by_children step i⟩)
  | call _ function _ args _ =>
    step _ (by simpa [children] using ⟨by_children step function, by_children_all step args⟩)
  | integerFunction _ _ _ arg _ => step _ (by simpa [children] using by_children step arg)
  | of _ quantifier _ members =>
    step _ (by simpa [children] using ⟨by_children step quantifier, by_children step members⟩)
  | ofAnchored _ quantifier _ members _ anchor =>
    step _ (by simpa [children] using ⟨by_children step quantifier, by_children step members, by_children step anchor⟩)
  | forOf _ _ quantifier _ members _ body =>
    step _ (by simpa [children] using ⟨by_children step quantifier, by_children step members, by_children step body⟩)
  | forIn _ _ quantifier _ _ iterable _ body =>
    step _ (by simpa [children] using ⟨by_children step quantifier, by_children step iterable, by_children step body⟩)
  | percentage _ operand _ => step _ (by simpa [children] using by_children step operand)

private theorem by_children_all {P : Expr → Prop} (step : ∀ e, (∀ child ∈ e.children, P child) → P e) :
    ∀ es : List Expr, ∀ e ∈ es, P e
  | [] => by simp
  | e :: rest => by simpa using ⟨by_children step e, by_children_all step rest⟩

end

theorem textWith_mapHandles (f : Handle → Handle) (word : Handle → String) (e : Expr) :
    (e.mapHandles f).textWith word = e.textWith (word ∘ f) := by
  induction e using by_children with
  | step e below =>
    cases e <;> simp_all [children, mapHandles, textWith, textsWith_eq, mapHandlesAll_eq, Function.comp_def]
    case set => exact congrArg _ (List.map_congr_left below)
    case call => exact congrArg _ (List.map_congr_left below.2)

theorem textWith_congr {v w : Handle → String} (e : Expr) (same : ∀ h ∈ e.handles, v h = w h) :
    e.textWith v = e.textWith w := by
  induction e using by_children with
  | step e below =>
    cases e <;> simp_all [children, handles, textWith, textsWith_eq, handlesAll_eq, or_imp, forall_and]
    case set =>
      refine congrArg _ (List.map_congr_left fun e member => below e member fun h inside => ?_)
      exact same.2.1 h e member inside
    case call =>
      refine congrArg _ (List.map_congr_left fun e member => below.2 e member fun h inside => ?_)
      exact same.2.2.1 h e member inside
    case forIn => exact congrArg _ (List.map_congr_left same.2.2.1)

private theorem foldAll_eq {β : Type} (f : Expr → List β → β) (es : List Expr) : foldAll f es = es.map (·.fold f) := by
  induction es with
  | nil => rfl
  | cons e rest later => rw [foldAll, later, List.map_cons]

theorem fold_eq {β : Type} (f : Expr → List β → β) (e : Expr) : e.fold f = f e (e.children.map (·.fold f)) := by
  cases e <;> simp [fold, children, foldAll_eq]

/-- Every node below one that stands at a depth, with the node itself. -/
def nodesFrom (depth : Nat) (e : Expr) : List (Nat × Expr) :=
  e.fold (fun e below depth => (depth, e) :: below.flatMap (· (depth + 1))) depth

theorem nodesFrom_eq (depth : Nat) (e : Expr) :
    e.nodesFrom depth = (depth, e) :: e.children.flatMap (·.nodesFrom (depth + 1)) := by
  rw [nodesFrom, fold_eq, List.flatMap_map]
  rfl

private theorem children_mapHandles (f : Handle → Handle) (e : Expr) :
    (e.mapHandles f).children = e.children.map (·.mapHandles f) := by
  cases e <;> simp [mapHandles, children, mapHandlesAll_eq]

private theorem nodesFrom_mapHandles (f : Handle → Handle) (e : Expr) (depth : Nat) :
    (e.mapHandles f).nodesFrom depth = (e.nodesFrom depth).map fun node => (node.1, node.2.mapHandles f) := by
  induction e using by_children generalizing depth with
  | step e below =>
    rw [nodesFrom_eq, nodesFrom_eq, children_mapHandles, List.flatMap_map, List.map_cons, List.map_flatMap]
    refine congrArg _ (List.flatMap_congr fun child member => ?_)
    exact below child member (depth + 1)

theorem nodes_mapHandles (f : Handle → Handle) (e : Expr) :
    (e.mapHandles f).nodes = e.nodes.map fun node => (node.1, node.2.mapHandles f) :=
  nodesFrom_mapHandles f e 0

theorem handles_of_child {e child : Expr} (member : child ∈ e.children) : child.handles ⊆ e.handles := by
  intro h inside
  cases e <;> simp_all [children, handles, handlesAll_eq] <;> grind

end YaraRules.Expr

/-! ### Rules -/

namespace YaraRules

mutual

/-- Handles that the unit refers to, in source order. -/
def HexUnit.handles : HexUnit → List Handle
  | .byte token => [token]
  | .jump opening low dash high closing => opening :: (low.toList ++ dash.toList ++ high.toList ++ [closing])
  | .alternation opening alternatives closing => opening :: (HexUnit.handlesAmong alternatives ++ [closing])

def HexUnit.handlesAll : List HexUnit → List Handle
  | [] => []
  | unit :: rest => unit.handles ++ HexUnit.handlesAll rest

def HexUnit.handlesAmong : List (List HexUnit) → List Handle
  | [] => []
  | units :: rest => HexUnit.handlesAll units ++ HexUnit.handlesAmong rest

end

def HexString.handles (s : HexString) : List Handle := s.opening :: (HexUnit.handlesAll s.units ++ [s.closing])

def StringContent.handles : StringContent → List Handle
  | .plain token => [token]
  | .hex string => string.handles
  | .regexp token _ => [token]

def StringModifier.handles (m : StringModifier) : List Handle := [m.first, m.last]

def StringDefinition.handles (s : StringDefinition) : List Handle :=
  s.id :: s.assign :: (s.content.handles ++ s.modifiers.flatMap StringModifier.handles)

def Section.handles (s : Section) : List Handle := [s.keyword, s.colon]

def MetaEntry.handles (m : MetaEntry) : List Handle := [m.key, m.assign, m.value]

/-- Handles that the rule refers to. -/
def Rule.handles (r : Rule) : List Handle :=
  r.modifiers ++ r.keyword :: r.name :: (r.tagColon.toList ++ r.tags) ++ r.opening ::
    ((r.metaSection.map Section.handles).getD [] ++ r.metas.flatMap MetaEntry.handles) ++
      ((r.stringSection.map Section.handles).getD [] ++ r.strings.values.flatMap StringDefinition.handles) ++
      r.conditionSection.handles ++ r.condition.handles ++ [r.closing]

end YaraRules

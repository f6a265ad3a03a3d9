import YaraRules.Proofs.ConditionEdits
import YaraRules.Proofs.RangeCopies

/-! Nodes of a condition that give way to copies of themselves. Each step leaves an equal
expression on other tokens, and the tokens of the expression are the only ones that give
way, so a tree is recast part by part. -/

namespace YaraRules

open TokenStream (Recast Secluded)

/-! ### Other handles -/

namespace Expr

private theorem mapHandles_mapHandles (f g : Handle → Handle) (e : Expr) :
    (e.mapHandles f).mapHandles g = e.mapHandles (g ∘ f) := by
  induction e using by_children with
  | step e below =>
    cases e <;> simp_all [children, mapHandles, mapHandlesAll_eq]

private theorem mapHandles_congr {f g : Handle → Handle} (e : Expr) (same : ∀ h ∈ e.handles, f h = g h) :
    e.mapHandles f = e.mapHandles g := by
  induction e using by_children with
  | step e below =>
    cases e <;> simp_all [children, handles, mapHandles, mapHandlesAll_eq, handlesAll_eq, or_imp, forall_and]
    case set => exact fun e member => below e member fun h inside => same.2.1 h e member inside
    case call => exact fun e member => below.2 e member fun h inside => same.2.2.1 h e member inside

private theorem mapHandles_id (e : Expr) : (e.mapHandles fun h => h) = e := by
  induction e using by_children with
  | step e below =>
    cases e <;> simp_all [children, mapHandles, mapHandlesAll_eq]
    case set => exact map_fixed below
    case call => exact map_fixed below.2

theorem mapHandles_fixed {f : Handle → Handle} (e : Expr) (fixed : ∀ h ∈ e.handles, f h = h) : e.mapHandles f = e :=
  (e.mapHandles_congr fixed).trans e.mapHandles_id

theorem handlesAll_mapHandles (f : Handle → Handle) (es : List Expr) :
    handlesAll (mapHandlesAll f es) = (handlesAll es).map f := by
  rw [handlesAll_eq, handlesAll_eq, mapHandlesAll_eq, List.flatMap_map, List.map_flatMap]
  exact List.flatMap_congr fun e _ => handles_mapHandles f e

private theorem mapHandlesAll_fixed {f : Handle → Handle} (es : List Expr) (fixed : ∀ h ∈ handlesAll es, f h = h) :
    mapHandlesAll f es = es := by
  rw [handlesAll_eq] at fixed
  rw [mapHandlesAll_eq]
  exact map_fixed fun e member => e.mapHandles_fixed fun h held => fixed h (List.mem_flatMap.mpr ⟨e, member, held⟩)

end Expr

/-! ### Steps that recast -/

/-- What refers to tokens and can be given others in their place. -/
structure Holding (α : Type) where
  handles : α → List Handle
  map : (Handle → Handle) → α → α
  handles_map : ∀ f x, handles (map f x) = (handles x).map f
  map_map : ∀ f g x, map g (map f x) = map (g ∘ f) x

def Expr.holding : Holding Expr := ⟨handles, mapHandles, handles_mapHandles, mapHandles_mapHandles⟩

def Expr.holdingAll : Holding (List Expr) where
  handles := handlesAll
  map := mapHandlesAll
  handles_map := handlesAll_mapHandles
  map_map f g es := by simp [mapHandlesAll_eq, mapHandles_mapHandles]

namespace RuleEdit

open YaraRules.Expr

/-- What is changed is the same on other tokens, and nothing else in the stream gave way. -/
def Recasts {α : Type} (holder : Holding α) (change : StateM Replacing α) (x : α) : Prop :=
  ∀ zone s id, s.Secluded zone → (∀ i ∈ s.ids, i < id) → (holder.handles x).Sublist zone →
    ∃ f s' id', change ⟨s, id, none⟩ = (holder.map f x, ⟨s', id', none⟩) ∧ Recast zone f s s' ∧ ∀ i ∈ s'.ids, i < id'

namespace Recasts

variable {α β : Type} {one : Holding α} {whole : Holding β} {change : StateM Replacing α}
    {next : α → StateM Replacing β} {x : α}

protected theorem pure (same : (one.map (fun h => h) x) = x) : Recasts one (pure x) x := by
  intro zone s id secluded fresh _
  exact ⟨_, s, id, by rw [same]; rfl, .refl secluded.tidy zone, fresh⟩

/-- A part gives way first, and then what holds it. -/
theorem child (first : Recasts one change x) (build : α → β) (ahead behind : List Handle)
    (rest : ∀ x, Recasts whole (next x) (build x))
    (split : ∀ x, whole.handles (build x) = ahead ++ (one.handles x ++ behind) := by
      simp [holding, holdingAll, handles, handlesAll])
    (fixed : ∀ f x, (∀ h ∈ ahead, f h = h) → (∀ h ∈ behind, f h = h) → whole.map f (build x) = build (one.map f x) := by
      simp +contextual [holding, holdingAll, mapHandles, mapHandlesAll, mapHandles_fixed, mapHandlesAll_fixed,
        map_fixed, or_imp, forall_and]) :
    Recasts whole (change >>= next) (build x) := by
  intro zone s id secluded fresh listed
  rw [split] at listed
  obtain ⟨early, others, rfl, listed₁, tail⟩ := List.append_sublist_iff.mp listed
  obtain ⟨part, late, rfl, listed₂, listed₃⟩ := List.append_sublist_iff.mp tail
  have inside : part <:+: early ++ (part ++ late) := ⟨early, late, by simp⟩
  have narrow := secluded.within inside
  obtain ⟨f, middle, id₁, run, recast, fresh₁⟩ := first part s id narrow fresh listed₂
  have once := secluded.tidy.sound.handles_nodup.sublist secluded.inside.sublist
  obtain ⟨_, tail_once, apart⟩ := List.nodup_append'.mp once
  obtain ⟨_, _, apart'⟩ := List.nodup_append'.mp tail_once
  -- Tokens around the part are the same.
  have still (h : Handle) (held : h ∈ early ++ (part ++ late)) (outside : h ∉ part) : f h = h := by
    obtain ⟨a, stored⟩ := secluded.stored held
    exact recast.still h (by simp [stored]) outside
  have ahead_still : ∀ h ∈ ahead, f h = h := fun h held =>
    still h (by simp [listed₁.subset held]) fun here => apart (listed₁.subset held) (by simp [here])
  have behind_still : ∀ h ∈ behind, f h = h := fun h held =>
    still h (by simp [listed₃.subset held]) fun here => apart' here (listed₃.subset held)
  have recast' := recast.widen inside.subset
  have built := fixed f x ahead_still behind_still
  have listed' : (whole.handles (build (one.map f x))).Sublist ((early ++ (part ++ late)).map f) := by
    rw [← built, whole.handles_map, split]
    exact listed.map f
  obtain ⟨g, after, id₂, run', recast₂, fresh₂⟩ := rest _ _ middle id₁ (recast'.remains secluded) fresh₁ listed'
  refine ⟨g ∘ f, after, id₂, ?_, recast'.trans secluded recast₂, fresh₂⟩
  rw [← whole.map_map, built, ← run']
  exact congrArg (fun done : α × Replacing => next done.1 done.2) run

end Recasts

section

variable {f : Expr → StateM Replacing Expr}

mutual

/-- A tree is recast if each step recasts a node. -/
theorem transform_recasts (step : ∀ e, Recasts holding (f e) e) : ∀ e : Expr, Recasts holding (e.transform f) e
  | atom .. => step _
  | .regexp .. => step _
  | .stringAt type id at_ offset => by
    rw [transform]
    exact (transform_recasts step offset).child (stringAt type id at_) [id, at_] [] fun _ => step _
  | .stringIn type counted id in_ bounds => by
    rw [transform]
    exact (transform_recasts step bounds).child (stringIn type counted id in_) [id, in_] [] fun _ => step _
  | .stringIndexed type measured id opening i closing => by
    rw [transform]
    exact (transform_recasts step i).child (stringIndexed type measured id opening · closing) [id, opening]
      [closing] fun _ => step _
  | .unary type op token operand => by
    rw [transform]
    exact (transform_recasts step operand).child (unary type op token) [token] [] fun _ => step _
  | .binary type op left token right => by
    rw [transform]
    refine (transform_recasts step left).child (binary type op · token right) [] (token :: right.handles) fun left => ?_
    exact (transform_recasts step right).child (binary type op left token) (left.handles ++ [token]) [] fun _ => step _
  | .paren type opening inner closing => by
    rw [transform]
    exact (transform_recasts step inner).child (paren type opening · closing) [opening] [closing] fun _ => step _
  | .range type opening low dots high closing => by
    rw [transform]
    refine (transform_recasts step low).child (range type opening · dots high closing) [opening]
      (dots :: (high.handles ++ [closing])) fun low => ?_
    exact (transform_recasts step high).child (range type opening low dots · closing)
      (opening :: (low.handles ++ [dots])) [closing] fun _ => step _
  | .set type opening elements closing => by
    rw [transform]
    exact (transform_recasts_all step elements).child (Expr.set type opening · closing) [opening]
      [closing] fun _ => step _
  | .field type structure_ dot member => by
    rw [transform]
    exact (transform_recasts step structure_).child (field type · dot member) [] [dot, member] fun _ => step _
  | .index type array opening i closing => by
    rw [transform]
    refine (transform_recasts step array).child (index type · opening i closing) []
      (opening :: (i.handles ++ [closing])) fun array => ?_
    exact (transform_recasts step i).child (index type array opening · closing) (array.handles ++ [opening])
      [closing] fun _ => step _
  | .call type function opening args closing => by
    rw [transform]
    refine (transform_recasts step function).child (call type · opening args closing) []
      (opening :: (handlesAll args ++ [closing])) fun function => ?_
    exact (transform_recasts_all step args).child (call type function opening · closing) (function.handles ++ [opening])
      [closing] fun _ => step _
  | .integerFunction type function opening arg closing => by
    rw [transform]
    exact (transform_recasts step arg).child (integerFunction type function opening · closing) [function, opening]
      [closing] fun _ => step _
  | .of type quantifier of_ members => by
    rw [transform]
    refine (transform_recasts step quantifier).child (Expr.of type · of_ members) [] (of_ :: members.handles)
      fun quantifier => ?_
    exact (transform_recasts step members).child (Expr.of type quantifier of_) (quantifier.handles ++ [of_])
      [] fun _ => step _
  | .ofAnchored type quantifier of_ members keyword anchor => by
    rw [transform]
    refine (transform_recasts step quantifier).child (ofAnchored type · of_ members keyword anchor) []
      (of_ :: (members.handles ++ keyword :: anchor.handles)) fun quantifier => ?_
    refine (transform_recasts step members).child (ofAnchored type quantifier of_ · keyword anchor)
      (quantifier.handles ++ [of_])
      (keyword :: anchor.handles) fun members => ?_
    exact (transform_recasts step anchor).child (ofAnchored type quantifier of_ members keyword)
      (quantifier.handles ++ of_ :: (members.handles ++ [keyword])) [] fun _ => step _
  | .forOf type for_ quantifier of_ members colon body => by
    rw [transform]
    refine (transform_recasts step quantifier).child (forOf type for_ · of_ members colon body) [for_]
      (of_ :: (members.handles ++ colon :: body.handles)) fun quantifier => ?_
    refine (transform_recasts step members).child (forOf type for_ quantifier of_ · colon body)
      (for_ :: (quantifier.handles ++ [of_]))
      (colon :: body.handles) fun members => ?_
    exact (transform_recasts step body).child (forOf type for_ quantifier of_ members colon)
      (for_ :: (quantifier.handles ++ of_ :: (members.handles ++ [colon]))) [] fun _ => step _
  | .forIn type for_ quantifier vars in_ iterable colon body => by
    rw [transform]
    refine (transform_recasts step quantifier).child (forIn type for_ · vars in_ iterable colon body) [for_]
      (vars ++ in_ :: (iterable.handles ++ colon :: body.handles)) fun quantifier => ?_
    refine (transform_recasts step iterable).child (forIn type for_ quantifier vars in_ · colon body)
      (for_ :: (quantifier.handles ++ (vars ++ [in_]))) (colon :: body.handles) fun iterable => ?_
    exact (transform_recasts step body).child (forIn type for_ quantifier vars in_ iterable colon)
      (for_ :: (quantifier.handles ++ (vars ++ in_ :: (iterable.handles ++ [colon])))) [] fun _ => step _
  | .percentage type operand percent => by
    rw [transform]
    exact (transform_recasts step operand).child (percentage type · percent) [] [percent] fun _ => step _

private theorem transform_recasts_all (step : ∀ e, Recasts holding (f e) e) :
    ∀ es : List Expr, Recasts holdingAll (transformAll f es) es
  | [] => .pure rfl
  | e :: rest => by
    rw [transformAll]
    refine (transform_recasts step e).child (· :: rest) [] (handlesAll rest) fun e => ?_
    exact (transform_recasts_all step rest).child (e :: ·) e.handles [] fun rest =>
      .pure (mapHandlesAll_fixed (e :: rest) fun _ _ => rfl)

end

end

/-! ### Copies -/

/-- Offers copies of the nodes that are selected, and something else where a node cannot be copied. -/
def copying (selects : ChainId → TokenStream → Expr → Bool) (otherwise : Option (Detached Expr)) : Modifier :=
  fun id tokens node =>
  if selects id tokens node then
    match Detached.copyOf Expr.rename tokens id node node.first node.last with
    | .ok copy => some copy
    | .error _ => otherwise
  else none

variable {selects : ChainId → TokenStream → Expr → Bool} {otherwise : Option (Detached Expr)}

private theorem replaceNode_recasts (node : Expr) :
    Recasts holding (replaceNode (copying selects otherwise) node) node := by
  intro zone s id secluded fresh listed
  by_cases selected : selects id s node = true
  · obtain ⟨part, inside, begins, ends, within⟩ := exists_span listed node.handles_ne_nil
    rw [holding, node.head?_handles] at begins
    rw [holding, node.getLast?_handles] at ends
    obtain ⟨names, copy, copied, named, names', after, exchanged, ids, f, recast, arrived⟩ :=
      (secluded.within inside).exchange_copy begins ends fun held => Nat.lt_irrefl id (fresh id held)
    have offered : copying selects otherwise id s node = some ⟨copy, node.rename names⟩ := by
      simp [copying, selected, Detached.copyOf, copied, bind, Except.bind, pure, Except.pure]
    have replaced : Succeeds (TokenEdit.exchange node.first node.last copy) s names' after :=
      TokenEdit.apply_succeeds exchanged
    rw [Succeeds] at replaced
    have settled : (node.rename names).rename names' = node.mapHandles f := by
      rw [rename, rename, mapHandles_mapHandles]
      exact node.mapHandles_congr fun h held => (arrived h (within.subset held)).symm
    refine ⟨f, after, max id (id + 1), ?_, recast.widen inside.subset, fun i member => ?_⟩
    · simp only [replaceNode_running, offered, replaced, settled]
      rw [TokenStream.id, named]
      rfl
    · rcases ids i member with old | rfl
      · exact Nat.lt_of_lt_of_le (fresh i old) (Nat.le_max_left _ _)
      · exact Nat.lt_of_lt_of_le (Nat.lt_succ_self i) (Nat.le_max_right _ _)
  · have declined : copying selects otherwise id s node = none := by simp [copying, selected]
    refine ⟨_, s, id, ?_, .refl secluded.tidy zone, fresh⟩
    rw [replaceNode_running, declined]
    exact congrArg (·, _) node.mapHandles_id.symm

/-- A condition whose tokens no alias leads to is left as it was, on other tokens. -/
theorem modifyCondition_recasts (selects : ChainId → TokenStream → Expr → Bool) (otherwise : Option (Detached Expr))
    {tokens : TokenStream}
    {rule : Rule} {id : ChainId} {zone : List Handle} (secluded : tokens.Secluded zone)
    (fresh : ∀ i ∈ tokens.ids, i < id)
    (listed : rule.condition.handles.Sublist zone) :
    ∃ f tokens' id', Succeeds (modifyCondition (copying selects otherwise)) ⟨tokens, rule, id⟩ ()
      ⟨tokens', { rule with condition := rule.condition.mapHandles f }, id'⟩ ∧ Recast zone f tokens tokens' ∧
      ∀ i ∈ tokens'.ids, i < id' := by
  obtain ⟨f, tokens', id', run, recast, fresh'⟩ :=
    transform_recasts replaceNode_recasts rule.condition zone tokens id secluded fresh listed
  refine ⟨f, tokens', id', ?_, recast, fresh'⟩
  rw [Succeeds, modifyCondition, get_run]
  dsimp only [StateT.run]
  rw [run]
  rfl

end RuleEdit

end YaraRules

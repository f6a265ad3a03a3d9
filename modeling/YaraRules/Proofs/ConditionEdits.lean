import YaraRules.Proofs.NodeRanges
import YaraRules.Proofs.RuleEdits
import YaraRules.Proofs.StreamWords

/-! Replacing nodes of a condition. Children are replaced before the node that holds them,
so the row of a node is rewritten part by part; what stands around a part stays where it
is. A replacement is built, or a copy of the node that it replaces or of a part of it. When
one of them cannot be put in its place, the row is left as it is by then. -/

namespace YaraRules

open TokenStream (Rewrites Spares)

/-- A node of an expression, or the whole of it, was copied. -/
def Expr.Copied (tokens : TokenStream) (e : Expr) (copy : Detached Expr) : Prop :=
  ∃ node ∈ e.nodes, ∃ id, Detached.copyOf Expr.rename tokens id node.2 node.2.first node.2.last = .ok copy

/-- The copy of a node is ready to be put somewhere if the expression stands in order. -/
theorem Expr.Copied.ready {tokens : TokenStream} {e : Expr} {copy : Detached Expr} (copied : e.Copied tokens copy)
    (tidy : tokens.Tidy) (listed : e.handles.Sublist tokens.code) {id : ChainId}
    (chain : ∀ h ∈ e.handles, h.chain = id) : copy.Ready Expr.handles := by
  obtain ⟨⟨_, node⟩, member, own, done⟩ := copied
  have part := Expr.node_sublist member
  refine .copyOf ?_ tidy node.head?_handles node.getLast?_handles (fun h held => ?_) (part.trans listed) done
  · exact fun names node => (Expr.handles_mapHandles names.apply node ▸ .refl _)
  · rw [chain h (part.subset held), chain node.first (part.subset (List.mem_of_head? node.head?_handles))]

namespace RuleEdit

/-- What is kept of words around a row, whatever becomes of the row. -/
structure Keeping (keeps : List Handle → Replacing → Replacing → Prop) : Prop where
  refl : ∀ kept s, keeps kept s s
  trans : ∀ {kept s middle s'}, keeps kept s middle → keeps kept middle s' → keeps kept s s'
  fewer : ∀ {kept few s s'}, keeps kept s s' → few ⊆ kept → keeps few s s'

/-- Tokens that stood in a row, in one stream, were rewritten, and something was kept of the words around them. -/
def Carries {α : Type} (keeps : List Handle → Replacing → Replacing → Prop) (change : StateM Replacing α)
    (old : List Handle)
    (new : α → List Handle) : Prop :=
  ∀ s a s', change s = (a, s') → s.tokens.Tidy → old.Sublist s.tokens.code → ∀ id, (∀ h ∈ old, h.chain = id) →
    Rewrites s.tokens s'.tokens old (new a) ∧
      ∀ front back, (front ++ (old ++ back)).Sublist s.tokens.code → keeps (front ++ back) s s'

variable {keeps : List Handle → Replacing → Replacing → Prop}

namespace Carries

variable {α β : Type} {change : StateM Replacing α} {next : α → StateM Replacing β} {old row : List Handle}
  {new : α → List Handle} {last : β → List Handle}

protected theorem pure (keeping : Keeping keeps) {a : α} (row : α → List Handle) :
    Carries keeps (pure a) (row a) row := by
  intro s b s' done tidy _ _ _
  cases done
  exact ⟨.refl tidy _, fun _ _ _ => keeping.refl _ _⟩

private theorem cast (carries : Carries keeps change old new) (same : row = old) :
    Carries keeps change row new := same ▸ carries

theorem bind (carries : Carries keeps change old new) (keeping : Keeping keeps) (ahead behind : List Handle)
    (split : row = ahead ++ (old ++ behind)) (rest : ∀ a, Carries keeps (next a) (ahead ++ (new a ++ behind)) last) :
    Carries keeps (change >>= next) row last := by
  subst split
  intro s b s' done tidy listed id chain
  rcases first : change s with ⟨a, middle⟩
  have second : next a middle = (b, s') := by
    have run : next (change s).1 (change s).2 = (b, s') := done
    rwa [first] at run
  have part : old.Sublist s.tokens.code :=
    ((List.sublist_append_left old behind).trans (List.sublist_append_right ahead _)).trans listed
  obtain ⟨rewrites, kept⟩ := carries s a middle first tidy part id fun h member => chain h (by simp [member])
  have whole := rewrites.frame ahead behind
  have listed' : (ahead ++ (new a ++ behind)).Sublist middle.tokens.code := by
    simpa using whole.code [] [] (by simpa using listed)
  obtain ⟨rewrites', kept'⟩ := rest a middle b s' second whole.tidy listed' id (whole.chain id chain)
  refine ⟨whole.trans rewrites', fun front back around => ?_⟩
  have wider := kept (front ++ ahead) (behind ++ back) (by simpa using around)
  refine keeping.trans (keeping.fewer wider fun h member => ?_) (kept' front back (whole.code front back around))
  rcases List.mem_append.mp member with early | late
  · simp [early]
  · simp [late]

end Carries

section

open YaraRules.Expr

variable {f : Expr → StateM Replacing Expr} (keeping : Keeping keeps)
include keeping

mutual

/-- The row of a tree is rewritten if each step rewrites the row of a node. -/
theorem transform_carries (step : ∀ e, Carries keeps (f e) e.handles handles) : ∀ e : Expr,
    Carries keeps (e.transform f) e.handles handles
  | atom .. => step _
  | .regexp .. => step _
  | .stringAt type id at_ offset => by
    rw [transform]
    refine (transform_carries step offset).bind keeping [id, at_] [] (by simp [handles]) fun offset => ?_
    exact (step _).cast (by simp [handles])
  | .stringIn type counted id in_ bounds => by
    rw [transform]
    refine (transform_carries step bounds).bind keeping [id, in_] [] (by simp [handles]) fun bounds => ?_
    exact (step _).cast (by simp [handles])
  | .stringIndexed type measured id opening i closing => by
    rw [transform]
    refine (transform_carries step i).bind keeping [id, opening] [closing] (by simp [handles]) fun i => ?_
    exact (step _).cast (by simp [handles])
  | .unary type op token operand => by
    rw [transform]
    refine (transform_carries step operand).bind keeping [token] [] (by simp [handles]) fun operand => ?_
    exact (step _).cast (by simp [handles])
  | .binary type op left token right => by
    rw [transform]
    refine (transform_carries step left).bind keeping [] (token :: right.handles) (by simp [handles]) fun left => ?_
    refine (transform_carries step right).bind keeping (left.handles ++ [token]) [] (by simp) fun right => ?_
    exact (step _).cast (by simp [handles])
  | .paren type opening inner closing => by
    rw [transform]
    refine (transform_carries step inner).bind keeping [opening] [closing] (by simp [handles]) fun inner => ?_
    exact (step _).cast (by simp [handles])
  | .range type opening low dots high closing => by
    rw [transform]
    refine (transform_carries step low).bind keeping [opening] (dots :: (high.handles ++ [closing]))
      (by simp [handles]) fun low => ?_
    refine (transform_carries step high).bind keeping (opening :: (low.handles ++ [dots])) [closing]
      (by simp) fun high => ?_
    exact (step _).cast (by simp [handles])
  | .set type opening elements closing => by
    rw [transform]
    refine (transform_carries_all step elements).bind keeping [opening] [closing] (by simp [handles]) fun elements => ?_
    exact (step _).cast (by simp [handles])
  | .field type structure_ dot member => by
    rw [transform]
    refine (transform_carries step structure_).bind keeping [] [dot, member] (by simp [handles]) fun structure_ => ?_
    exact (step _).cast (by simp [handles])
  | .index type array opening i closing => by
    rw [transform]
    refine (transform_carries step array).bind keeping [] (opening :: (i.handles ++ [closing]))
      (by simp [handles]) fun array => ?_
    refine (transform_carries step i).bind keeping (array.handles ++ [opening]) [closing] (by simp) fun i => ?_
    exact (step _).cast (by simp [handles])
  | .call type function opening args closing => by
    rw [transform]
    refine (transform_carries step function).bind keeping [] (opening :: (handlesAll args ++ [closing]))
      (by simp [handles]) fun function => ?_
    refine (transform_carries_all step args).bind keeping (function.handles ++ [opening]) [closing]
      (by simp) fun args => ?_
    exact (step _).cast (by simp [handles])
  | .integerFunction type function opening arg closing => by
    rw [transform]
    refine (transform_carries step arg).bind keeping [function, opening] [closing] (by simp [handles]) fun arg => ?_
    exact (step _).cast (by simp [handles])
  | .of type quantifier of_ members => by
    rw [transform]
    refine (transform_carries step quantifier).bind keeping [] (of_ :: members.handles) (by simp [handles])
      fun quantifier => ?_
    refine (transform_carries step members).bind keeping (quantifier.handles ++ [of_]) [] (by simp) fun members => ?_
    exact (step _).cast (by simp [handles])
  | .ofAnchored type quantifier of_ members keyword anchor => by
    rw [transform]
    refine (transform_carries step quantifier).bind keeping [] (of_ :: (members.handles ++ keyword :: anchor.handles))
      (by simp [handles]) fun quantifier => ?_
    refine (transform_carries step members).bind keeping (quantifier.handles ++ [of_]) (keyword :: anchor.handles)
      (by simp) fun members => ?_
    refine (transform_carries step anchor).bind keeping (quantifier.handles ++ of_ :: (members.handles ++ [keyword])) []
      (by simp) fun anchor => ?_
    exact (step _).cast (by simp [handles])
  | .forOf type for_ quantifier of_ members colon body => by
    rw [transform]
    refine (transform_carries step quantifier).bind keeping [for_] (of_ :: (members.handles ++ colon :: body.handles))
      (by simp [handles]) fun quantifier => ?_
    refine (transform_carries step members).bind keeping (for_ :: (quantifier.handles ++ [of_])) (colon :: body.handles)
      (by simp) fun members => ?_
    refine (transform_carries step body).bind keeping
      (for_ :: (quantifier.handles ++ of_ :: (members.handles ++ [colon]))) [] (by simp) fun body => ?_
    exact (step _).cast (by simp [handles])
  | .forIn type for_ quantifier vars in_ iterable colon body => by
    rw [transform]
    refine (transform_carries step quantifier).bind keeping [for_]
      (vars ++ in_ :: (iterable.handles ++ colon :: body.handles)) (by simp [handles]) fun quantifier => ?_
    refine (transform_carries step iterable).bind keeping (for_ :: (quantifier.handles ++ (vars ++ [in_])))
      (colon :: body.handles) (by simp) fun iterable => ?_
    refine (transform_carries step body).bind keeping
      (for_ :: (quantifier.handles ++ (vars ++ in_ :: (iterable.handles ++ [colon])))) [] (by simp) fun body => ?_
    exact (step _).cast (by simp [handles])
  | .percentage type operand percent => by
    rw [transform]
    refine (transform_carries step operand).bind keeping [] [percent] (by simp [handles]) fun operand => ?_
    exact (step _).cast (by simp [handles])

private theorem transform_carries_all (step : ∀ e, Carries keeps (f e) e.handles handles) : ∀ es : List Expr,
    Carries keeps (transformAll f es) (handlesAll es) handlesAll
  | [] => .pure keeping handlesAll
  | e :: rest => by
    rw [transformAll]
    refine (transform_carries step e).bind keeping [] (handlesAll rest) rfl fun e => ?_
    refine (transform_carries_all step rest).bind keeping e.handles [] (by simp) fun rest => ?_
    exact (Carries.pure keeping handlesAll).cast (by simp [handlesAll])

end

end

/-- Every replacement has its tokens in order, or is a copy of the node that it replaces or of a part of it. -/
def Offers (modifier : Modifier) : Prop :=
  ∀ id tokens node replacement, modifier id tokens node = some replacement →
    replacement.Ready Expr.handles ∨ node.Copied tokens replacement

private theorem replaceNode_run (modifier : Modifier) (node : Expr) (tokens : TokenStream) (nextId : ChainId) :
    replaceNode modifier node ⟨tokens, nextId, none⟩ =
      (match modifier nextId tokens node with
      | none => pure node
      | some replacement =>
        match TokenEdit.exchange node.first node.last replacement.tokens tokens with
        | (result, tokens') =>
          match result with
          | .ok names => do
            set (Replacing.mk tokens' (max nextId (replacement.tokens.id + 1)) none)
            return replacement.node.rename names
          | .error error => do
            set (Replacing.mk tokens' (max nextId (replacement.tokens.id + 1)) (some error))
            return node : StateM Replacing Expr) ⟨tokens, nextId, none⟩ := rfl

/-- What becomes of a node as long as the replacing goes on. -/
theorem replaceNode_running (modifier : Modifier) (node : Expr) (tokens : TokenStream) (nextId : ChainId) :
    replaceNode modifier node ⟨tokens, nextId, none⟩ =
      match modifier nextId tokens node with
      | none => (node, ⟨tokens, nextId, none⟩)
      | some replacement =>
        match TokenEdit.exchange node.first node.last replacement.tokens tokens with
        | (.ok names, tokens') =>
          (replacement.node.rename names, ⟨tokens', max nextId (replacement.tokens.id + 1), none⟩)
        | (.error error, tokens') => (node, ⟨tokens', max nextId (replacement.tokens.id + 1), some error⟩) := by
  rw [replaceNode_run]
  cases modifier nextId tokens node with
  | none => rfl
  | some replacement =>
    dsimp only
    rcases TokenEdit.exchange node.first node.last replacement.tokens tokens with ⟨result, tokens'⟩
    cases result <;> rfl

/-- An expression takes the place of a row, and no words around it are changed. -/
theorem exchange_replaces {tokens after : TokenStream} {old : List Handle} {first last : Handle}
    {replacement : Detached Expr}
    {names : TokenStream.Renaming} (tidy : tokens.Tidy) (ready : replacement.Ready Expr.handles)
    (begins : old.head? = some first)
    (ends : old.getLast? = some last) (done : (tokens.exchange first last replacement.tokens).1 = .ok (names, after)) :
    Rewrites tokens after old (replacement.node.rename names).handles ∧
      ∀ front back, (front ++ (old ++ back)).Sublist tokens.code → Spares tokens after (front ++ back) := by
  have nonempty := replacement.node.handles_ne_nil
  have replaced := tidy.exchange ready.lone begins ends nonempty ready.listed done
  rw [← Expr.handles_mapHandles] at replaced
  refine ⟨replaced, fun front back listed => ?_⟩
  refine tidy.exchange_spares ready.lone (TokenStream.view_ne_nil nonempty ready.listed) done replaced.tidy
    fun h member => ?_
  have here := (replaced.code front back listed).subset
  rcases List.mem_append.mp member with early | late
  · exact here (List.mem_append_left _ early)
  · exact here (List.mem_append_right _ (List.mem_append_right _ late))

/-- Replacing keeps something of the words around a node if each replacement does that is put in, and one that cannot be
put in changes nothing that matters. -/
theorem replaceNode_carries (keeping : Keeping keeps) {modifier : Modifier} (offers : Offers modifier)
    (failed : ∀ kept tokens id id' e, id ≤ id' → keeps kept ⟨tokens, id, none⟩ ⟨tokens, id', some e⟩)
    (put : ∀ node id tokens replacement names after, modifier id tokens node = some replacement → tokens.Tidy →
      replacement.Ready Expr.handles → (tokens.exchange node.first node.last replacement.tokens).1 =
      .ok (names, after) →
      ∀ front back, (front ++ (node.handles ++ back)).Sublist tokens.code →
        keeps (front ++ back) ⟨tokens, id, none⟩ ⟨after, max id (replacement.tokens.id + 1), none⟩) (node : Expr) :
    Carries keeps (replaceNode modifier node) node.handles Expr.handles := by
  rintro ⟨tokens, nextId, error⟩ e s' done tidy listed id chain
  cases error with
  | some stopped =>
    cases done
    exact ⟨.refl tidy _, fun _ _ _ => keeping.refl _ _⟩
  | none =>
    rw [replaceNode_running] at done
    cases offered : modifier nextId tokens node with
    | none =>
      rw [offered] at done
      cases done
      exact ⟨.refl tidy _, fun _ _ _ => keeping.refl _ _⟩
    | some replacement =>
      rw [offered] at done
      have ready : replacement.Ready Expr.handles := by
        rcases offers _ _ _ _ offered with built | copied
        · exact built
        · exact copied.ready tidy listed chain
      cases exchanged : (tokens.exchange node.first node.last replacement.tokens).1 with
      | error e =>
        have stopped : Fails (TokenEdit.exchange node.first node.last replacement.tokens) tokens (.tokens e) tokens :=
          TokenEdit.apply_fails exchanged
        rw [Fails] at stopped
        simp only [stopped] at done
        cases done
        exact ⟨.refl tidy _, fun _ _ _ => failed _ _ _ _ _ (Nat.le_max_left _ _)⟩
      | ok pair =>
        obtain ⟨names, after⟩ := pair
        have replaced : Succeeds (TokenEdit.exchange node.first node.last replacement.tokens) tokens names after :=
          TokenEdit.apply_succeeds exchanged
        rw [Succeeds] at replaced
        simp only [replaced] at done
        cases done
        exact ⟨(exchange_replaces tidy ready node.head?_handles node.getLast?_handles exchanged).1,
          put node _ _ _ _ _ offered tidy ready exchanged⟩

/-- Whatever comes of it, the replacing leaves the row of the rule rewritten, and keeps what it keeps of words
that are not of the condition. -/
theorem modifyCondition_carries (keeping : Keeping keeps) {modifier : Modifier}
    (step : ∀ node, Carries keeps (replaceNode modifier node) node.handles Expr.handles)
    {tokens : TokenStream} {rule : Rule}
    {id : ChainId} {scope' : RuleScope} {result : Except EditError Unit} (tidy : tokens.Tidy)
    (listed : rule.row.Sublist tokens.code) {chain : ChainId} (one : ∀ h ∈ rule.row, h.chain = chain)
    (done : modifyCondition modifier ⟨tokens, rule, id⟩ = (result, scope')) :
    ∃ condition stopped, scope'.rule = { rule with condition } ∧
    Rewrites tokens scope'.tokens rule.row scope'.rule.row ∧
      ∀ front back, (front ++ (rule.condition.handles ++ back)).Sublist tokens.code →
        keeps (front ++ back) ⟨tokens, id, none⟩ ⟨scope'.tokens, scope'.nextId, stopped⟩ := by
  rw [modifyCondition, get_run] at done
  rcases run : rule.condition.transform (replaceNode modifier) ⟨tokens, id, none⟩ with
    ⟨condition, tokens', nextId, error⟩
  dsimp only [StateT.run] at done
  rw [run] at done
  obtain rfl : scope' = ⟨tokens', { rule with condition }, nextId⟩ := by
    cases error <;>
      · cases done
        rfl
  have part := rule.condition_sublist
  obtain ⟨rewritten, kept⟩ := transform_carries keeping step _ _ _ _ run tidy (part.trans listed) chain
    fun h member => one h (part.subset member)
  refine ⟨condition, error, rfl, ?_, kept⟩
  exact (rewritten.right _).left _ |>.left _ |>.left _ |>.left _ |>.left _ |>.left _ |>.left _

theorem keeping_spares : Keeping fun kept s s' => Spares s.tokens s'.tokens kept :=
  ⟨fun _ _ => .refl _ _, fun first second => first.trans second, fun spares fewer => spares.fewer fewer⟩

theorem replaceNode_spares {modifier : Modifier} (offers : Offers modifier) : ∀ node,
    Carries (fun kept s s' => Spares s.tokens s'.tokens kept) (replaceNode modifier node) node.handles Expr.handles :=
  replaceNode_carries keeping_spares offers (fun _ _ _ _ _ _ => .refl _ _) fun node _ _ _ _ _ _ tidy ready exchanged =>
    (exchange_replaces tidy ready node.head?_handles node.getLast?_handles exchanged).2

theorem modifyCondition_keeps {modifier : Modifier} {tokens : TokenStream} {rule : Rule} {id : ChainId}
    {scope' : RuleScope} {u : Unit} (offers : Offers modifier) (tidy : tokens.Tidy) (filed : rule.Filed)
    (listed : rule.row.Sublist tokens.code) {chain : ChainId} (one : ∀ h ∈ rule.row, h.chain = chain)
    (done : Succeeds (modifyCondition modifier) ⟨tokens, rule, id⟩ u scope') : Keeps tokens rule scope' := by
  obtain ⟨condition, _, same, rewrites, _⟩ :=
    modifyCondition_carries keeping_spares (replaceNode_spares offers) tidy listed one done
  exact ⟨rewrites, same ▸ ⟨filed.neat, filed.header⟩⟩

end RuleEdit

end YaraRules

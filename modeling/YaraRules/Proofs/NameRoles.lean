import YaraRules.Edit.Rule
import YaraRules.Proofs.ExprHandles
import YaraRules.Proofs.StreamSights

/-! The parts that tokens have in naming things. A token is the name of a rule or of a
string, or it is a name or a string in a condition, which follows one of those or
holds a text of its own. -/

namespace YaraRules

open TokenStream (Plain)

/-- Kinds of tokens that refer to strings. -/
def Grammar.Refers (kind : TokenKind) : Prop := kind ∈ [.stringName, .stringCount, .stringOffset, .stringLength]

/-- The part a token has, by its handle. -/
inductive Role where
  | ruleName (token : Handle) (text : String)
  | stringName (token : Handle)
  /-- A name in a condition, of a rule or of something else. -/
  | nameUse (token : Handle)
  /-- A string in a condition, with the names of the strings that the rule has. -/
  | stringUse (token : Handle) (strings : List Handle)

namespace Role

def token : Role → Handle
  | ruleName token _ | stringName token | nameUse token | stringUse token _ => token

/-- What a token is like that has the part, given the names of the rules that there are. A name
that stands for a rule is an alias of the name that it sees; the text of one that is out
of sight is copied. A string is an alias of its name, or a sigil alone that stands for the
string of a loop. -/
def Suits (rules : List (String × Handle)) (s : TokenStream) (a : Token) : Role → Prop
  | ruleName _ text => a.kind = .ruleName ∧ Plain a ∧ a.literal.text = text
  | stringName _ => a.kind = .stringDefinition ∧ Plain a
  | nameUse token => a.kind = .symbolName ∧ (a.literal.asSymbol?.isSome ∨ ∃ rule ∈ rules,
      a.literal.aliasTarget? = some rule.2 ∧ s.Sees token rule.2 ∨
        Plain a ∧ a.literal.text = rule.1 ∧ ¬ s.Sees token rule.2)
  | stringUse _ strings => Grammar.Refers a.kind ∧ ((∃ target ∈ strings, a.literal.aliasTarget? = some target) ∨
      Plain a ∧ (TokenStream.writtenAs a.kind a.literal.text).toList.drop 1 = [])

theorem Suits.of_sees {rules : List (String × Handle)} {s after : TokenStream} {a : Token} {role : Role}
    (suits : role.Suits rules s a) (same : ∀ rule ∈ rules, after.Sees role.token rule.2 ↔ s.Sees role.token rule.2) :
    role.Suits rules after a := by
  cases role with
  | ruleName | stringName | stringUse => exact suits
  | nameUse h =>
    refine ⟨suits.1, suits.2.imp_right fun ⟨rule, member, resolved⟩ => ⟨rule, member, ?_⟩⟩
    have sight : after.Sees h rule.2 ↔ s.Sees h rule.2 := same rule member
    rwa [sight]

theorem Suits.mono {rules more : List (String × Handle)} {s : TokenStream} {a : Token} {role : Role}
    (suits : role.Suits rules s a) (grows : rules ⊆ more) : role.Suits more s a := by
  cases role with
  | ruleName | stringName | stringUse => exact suits
  | nameUse h => exact ⟨suits.1, suits.2.imp_right fun ⟨rule, member, resolved⟩ => ⟨rule, grows member, resolved⟩⟩

/-- A name in a condition leads to the name of a rule, or a string there to the name of a string. -/
def Leads (roles : List Role) (h target : Handle) : Prop :=
  nameUse h ∈ roles ∧ (∃ text, ruleName target text ∈ roles) ∨
    (∃ strings, stringUse h strings ∈ roles) ∧ stringName target ∈ roles

theorem Leads.mono {roles more : List Role} {h target : Handle} (leads : Leads roles h target) (grows : roles ⊆ more) :
    Leads more h target :=
  leads.imp (fun ⟨use, text, name⟩ => ⟨grows use, text, grows name⟩) fun ⟨⟨strings, use⟩, name⟩ =>
    ⟨⟨strings, grows use⟩, grows name⟩

end Role

namespace Expr

theorem stringToken?_mem {e : Expr} {h : Handle} (named : e.stringToken? = some h) : h ∈ e.handles := by
  cases e with
  | atom type kind token => cases kind <;> simp_all [stringToken?, handles]
  | _ => simp_all [stringToken?, handles]

/-- The part that the token of a node has, given the names of the strings of the rule. -/
def use? (strings : List Handle) : Expr → Option Role
  | atom _ .name token => some (.nameUse token)
  | e => e.stringToken?.map (.stringUse · strings)

/-- Names and strings in an expression. -/
def uses (strings : List Handle) (e : Expr) : List Role := e.nodes.filterMap (·.2.use? strings)

theorem uses_eq (strings : List Handle) (e : Expr) :
    e.uses strings = (e.use? strings).toList ++ e.children.flatMap (uses strings) := by
  have depths : ∀ (e : Expr) depth, (e.nodesFrom depth).filterMap (·.2.use? strings) = e.uses strings := by
    intro e
    induction e using by_children with
    | step e below =>
      intro depth
      have at_ (depth : Nat) : (e.nodesFrom depth).filterMap (·.2.use? strings) =
          (e.use? strings).toList ++ e.children.flatMap (uses strings) := by
        rw [nodesFrom_eq, List.filterMap_cons, List.filterMap_flatMap]
        rw [List.flatMap_congr fun child member => below child member (depth + 1)]
        cases e.use? strings <;> rfl
      rw [at_, show e.uses strings = (e.nodesFrom 0).filterMap (·.2.use? strings) from rfl, at_]
  refine (depths e 0).symm.trans ?_
  rw [nodesFrom_eq, List.filterMap_cons, List.filterMap_flatMap]
  rw [List.flatMap_congr fun child _ => depths child (0 + 1)]
  cases e.use? strings <;> rfl

end Expr

namespace Rule

/-- Names of the strings of a rule. -/
def ids (r : Rule) : List Handle := r.strings.values.map (·.id)

/-- Parts that tokens of a rule have which has the given name. -/
def roles (text : String) (r : Rule) : List Role :=
  .ruleName r.name text :: (r.ids.map .stringName ++ r.condition.uses r.ids)

end Rule

namespace RuleFile

/-- Names of the rules of a file. -/
def names (file : RuleFile) : List (String × Handle) :=
  file.rules.map fun rule => (rule.nameText file.tokens, rule.name)

/-- Parts that tokens of a file have. -/
def roles (file : RuleFile) : List Role := file.rules.flatMap fun rule => rule.roles (rule.nameText file.tokens)

/-- Tokens of a file are like their parts, and aliases lead to names of rules and strings. -/
structure Linked (file : RuleFile) : Prop where
  sound : file.tokens.Sound
  distinct : file.tokens.ids.Nodup
  unique : (file.names.map (·.1)).Nodup
  placed : ∀ role ∈ file.roles, ∃ a, file.tokens.get? role.token = some a ∧ role.Suits file.names file.tokens a
  aliases : ∀ h a target, file.tokens.get? h = some a → a.literal.aliasTarget? = some target →
    Role.Leads file.roles h target

end RuleFile

end YaraRules

import YaraRules.Proofs.RowSteps
import YaraRules.Proofs.StreamTexts
import YaraRules.Proofs.StreamViews

/-! Two readings side by side. The tokens of the first have partners in the second, which
differ from them in their handles and places only, and wherever the first reading
gets, the second gets to the partner of it. The texts of the tokens stay what they
are: a name that is resolved, or made an alias, is written as before. -/

namespace YaraRules

/-- The literal, with another target if it is an alias. -/
def Literal.redirect (f : Handle → Handle) (l : Literal) : Literal :=
  match l.value with
  | .alias target => { l with value := .alias (f target) }
  | _ => l

theorem Literal.redirect_same {f : Handle → Handle} {l : Literal}
    (same : ∀ target, l.aliasTarget? = some target → f target = target) : l.redirect f = l := by
  obtain ⟨value, formatted, escaped⟩ := l
  unfold redirect
  split
  next target held =>
    obtain rfl : value = .alias target := held
    rw [same target rfl]
  next => rfl

theorem Literal.redirect_plain {f : Handle → Handle} {l : Literal} (plain : l.aliasTarget? = none) : l.redirect f = l :=
  redirect_same fun target points => by simp [plain] at points

private theorem Literal.aliasTarget?_redirect (f : Handle → Handle) (l : Literal) :
    (l.redirect f).aliasTarget? = l.aliasTarget?.map f := by
  obtain ⟨value, formatted, escaped⟩ := l
  cases value <;> rfl

namespace Grammar

/-- Whenever the first reading succeeds, the second does too, and what they give and
where they get is related. -/
def Follows {α β : Type} (p : Parse α) (q : Parse β) (s t : State)
    (post : α → β → State → State → Prop) : Prop :=
  ∀ a s', p.run s = .ok (a, s') → ∃ b t', q.run t = .ok (b, t') ∧ post a b s' t'

/-- The reading ends with a problem. -/
def Fails {α : Type} (p : Parse α) (s : State) : Prop := ∃ e, p.run s = .error e

namespace Fails

variable {α β : Type}

theorem fail (h : Handle) (problem : Problem) (s : State) : Fails (Grammar.fail h problem : Parse α) s := ⟨_, rfl⟩

theorem unexpected (expected : String) (s : State) : Fails (Grammar.unexpected expected : Parse α) s := by
  unfold Fails Grammar.unexpected
  rw [StateT.run_bind]
  simp only [StateT.run_get, pure_bind]
  split <;> exact ⟨_, rfl⟩

theorem bind {p : Parse α} {s : State} (fails : Fails p s) (f : α → Parse β) : Fails (p >>= f) s := by
  obtain ⟨e, failed⟩ := fails
  exact ⟨e, by rw [StateT.run_bind, failed]; rfl⟩

end Fails

namespace Follows

variable {α β γ δ : Type} {p : Parse α} {q : Parse β} {s t : State} {post : α → β → State → State → Prop}

theorem pure {a : α} {b : β} (holds : post a b s t) : Follows (pure a) (pure b) s t post := by
  intro a' s' ran
  cases ran
  exact ⟨b, t, rfl, holds⟩

theorem weaken {weaker : α → β → State → State → Prop} (follows : Follows p q s t post)
    (implies : ∀ a b s' t', post a b s' t' → weaker a b s' t') : Follows p q s t weaker := by
  intro a s' ran
  obtain ⟨b, t', ran', holds⟩ := follows a s' ran
  exact ⟨b, t', ran', implies a b s' t' holds⟩

theorem bind {f : α → Parse γ} {g : β → Parse δ} {last : γ → δ → State → State → Prop}
    (first : Follows p q s t post)
    (next : ∀ a b s' t', post a b s' t' → Follows (f a) (g b) s' t' last) :
    Follows (p >>= f) (q >>= g) s t last := by
  intro c s'' ran
  obtain ⟨a, s', one, ran⟩ := bind_done ran
  obtain ⟨b, t', two, holds⟩ := first a s' one
  obtain ⟨d, t'', ran', last⟩ := next a b s' t' holds c s'' ran
  exact ⟨d, t'', by rw [StateT.run_bind, two]; exact ran', last⟩

/-- Steps that cannot fail are taken on both sides. -/
theorem step {f : α → Parse γ} {g : β → Parse δ} {last : γ → δ → State → State → Prop} {a : α} {b : β} {s' t' : State}
    (one : p.run s = .ok (a, s')) (two : q.run t = .ok (b, t')) (next : Follows (f a) (g b) s' t' last) :
    Follows (p >>= f) (q >>= g) s t last := by
  intro c s'' ran
  rw [StateT.run_bind, one] at ran
  obtain ⟨d, t'', ran', holds⟩ := next c s'' ran
  exact ⟨d, t'', by rw [StateT.run_bind, two]; exact ran', holds⟩

/-- What the first reading does by itself may be used too. -/
theorem and_run {extra : α → State → Prop} (follows : Follows p q s t post)
    (first : ∀ a s', p.run s = .ok (a, s') → extra a s') :
    Follows p q s t fun a b s' t' => post a b s' t' ∧ extra a s' := by
  intro a s' ran
  obtain ⟨b, t', ran', holds⟩ := follows a s' ran
  exact ⟨b, t', ran', holds, first a s' ran⟩

theorem of_fails (fails : Fails p s) : Follows p q s t post := by
  intro a s' ran
  obtain ⟨e, failed⟩ := fails
  rw [failed] at ran
  cases ran

theorem fail (h : Handle) (problem : Problem) : Follows (Grammar.fail h problem : Parse α) q s t post :=
  of_fails (.fail h problem s)

theorem unexpected (expected : String) : Follows (Grammar.unexpected expected : Parse α) q s t post :=
  of_fails (.unexpected expected s)

theorem fail_bind (h : Handle) (problem : Problem) {f : γ → Parse α} :
    Follows (Grammar.fail h problem >>= f) q s t post :=
  of_fails (.bind (.fail h problem s) f)

theorem unexpected_bind (expected : String) {f : γ → Parse α} :
    Follows (Grammar.unexpected expected >>= f) q s t post :=
  of_fails (.bind (.unexpected expected s) f)

end Follows

/-- How the tokens of two readings belong together. -/
structure Pairing where
  partner : Handle → Handle
  /-- Tokens of the first reading that have a partner. -/
  paired : Handle → Prop
  injective : ∀ {h k}, paired h → paired k → partner h = partner k → h = k
  /-- Tokens of the first reading as they were before they were read. -/
  lexed : Handle → Token
  /-- How the tokens are written. -/
  word : Handle → String

namespace Pairing

/-- The token belongs to both readings. -/
def Shares (c : Pairing) (h : Handle) : Prop := c.paired h ∧ c.partner h = h

/-- A token and its partner mean the same. -/
def Alike (c : Pairing) (a b : Token) : Prop :=
  b.kind = a.kind ∧ b.literal = a.literal.redirect c.partner

end Pairing

/-- Kinds of tokens that others are aliases of. -/
def isAnchor : TokenKind → Bool
  | .stringDefinition | .ruleName => true
  | _ => false

/-- The token may be the target of aliases. -/
def Anchored (x : TokenStream) (h : Handle) : Prop :=
  ∃ a, x.get? h = some a ∧ isAnchor a.kind = true ∧ TokenStream.Plain a

section

variable {x : TokenStream} {h : Handle} {a : Token} (found : x.get? h = some a) (free : isAnchor a.kind = false)
include found free

private theorem not_anchored : ¬ Anchored x h := by
  rintro ⟨b, held, anchor, -⟩
  obtain rfl : a = b := Option.some.inj (found.symm.trans held)
  rw [free] at anchor
  cases anchor

theorem Anchored.modify {k : Handle} (anchored : Anchored x k) (f : Token → Token) : Anchored (x.modify h f) k := by
  have apart : k ≠ h := fun same => not_anchored found free (same ▸ anchored)
  obtain ⟨b, held, rest⟩ := anchored
  exact ⟨b, by rw [TokenStream.get?_modify, if_neg apart, held], rest⟩

private theorem textOf_modify (f : Token → Token) {b : Token}
    (targets : ∀ k, b.literal.aliasTarget? = some k → Anchored x k) : (x.modify h f).textOf b = x.textOf b := by
  cases target : b.literal.aliasTarget? with
  | none => rw [TokenStream.textOf_plain _ target, TokenStream.textOf_plain _ target]
  | some k =>
    have apart : k ≠ h := fun same => not_anchored found free (same ▸ targets k target)
    obtain ⟨d, held, -, plain⟩ := targets k target
    have after : (x.modify h f).get? k = some d := by rw [TokenStream.get?_modify, if_neg apart, held]
    rw [TokenStream.textOf_alias _ target held plain, TokenStream.textOf_alias _ target after plain]

end

/-- The streams of two readings. Aliases lead to names that are not aliases. -/
structure Twins (c : Pairing) (x y : TokenStream) : Prop where
  sound : x.Sound ∧ x.ids.Nodup
  sound' : y.Sound ∧ y.ids.Nodup
  tokens : ∀ h, c.paired h → Option.Rel c.Alike (x.get? h) (y.get? (c.partner h))
  words : ∀ h a, c.paired h → x.get? h = some a → x.textOf a = c.word h
  targets : ∀ h a target, x.get? h = some a → a.literal.aliasTarget? = some target → c.paired target ∧ Anchored x target
  targets' : ∀ k b target, y.get? k = some b → b.literal.aliasTarget? = some target →
    ∃ h, target = c.partner h ∧ c.paired h ∧ Anchored x h

namespace Twins

variable {c : Pairing} {x y : TokenStream} {h : Handle} {a : Token}

theorem get? (twins : Twins c x y) (paired : c.paired h) (found : x.get? h = some a) :
    ∃ b, y.get? (c.partner h) = some b ∧ c.Alike a b := by
  have related := twins.tokens h paired
  rw [found] at related
  cases other : y.get? (c.partner h) with
  | none => rw [other] at related; cases related
  | some b => rw [other] at related; cases related with | some alike => exact ⟨b, rfl, alike⟩

theorem get?_none (twins : Twins c x y) (paired : c.paired h) (missing : x.get? h = none) :
    y.get? (c.partner h) = none := by
  have related := twins.tokens h paired
  rw [missing] at related
  cases other : y.get? (c.partner h) with
  | none => rfl
  | some b => rw [other] at related; cases related

/-- Both readings have the same text for a token and its partner. -/
theorem textOf (twins : Twins c x y) (paired : c.paired h) (found : x.get? h = some a) {b : Token}
    (other : y.get? (c.partner h) = some b) : y.textOf b = c.word h := by
  obtain ⟨b', found', kind, literal⟩ := twins.get? paired found
  obtain rfl : b' = b := Option.some.inj (found'.symm.trans other)
  rw [← twins.words h a paired found]
  cases target : a.literal.aliasTarget? with
  | none =>
    have same : b'.literal = a.literal := literal.trans (Literal.redirect_plain target)
    rw [x.textOf_plain target, y.textOf_plain (by rw [TokenStream.Plain, same, target]), kind, same]
  | some k =>
    obtain ⟨known, d, held, -, plain⟩ := twins.targets h a k found target
    obtain ⟨e, held', -, literal'⟩ := twins.get? known held
    have plain' : e.literal = d.literal := literal'.trans (Literal.redirect_plain plain)
    have target' : b'.literal.aliasTarget? = some (c.partner k) := by
      rw [literal, Literal.aliasTarget?_redirect, target]
      rfl
    rw [x.textOf_alias target held plain,
      y.textOf_alias target' held' (by rw [TokenStream.Plain, plain']; exact plain), kind, plain']

theorem text (twins : Twins c x y) (paired : c.paired h) (found : x.get? h = some a) :
    x.text h = c.word h ∧ y.text (c.partner h) = c.word h := by
  obtain ⟨b, other, -⟩ := twins.get? paired found
  exact ⟨(x.text_eq found).trans (twins.words h a paired found),
    (y.text_eq other).trans (twins.textOf paired found other)⟩

/-- A token and its partner are changed alike, into tokens that are written as before. -/
theorem modify (twins : Twins c x y) (paired : c.paired h) (found : x.get? h = some a) (free : isAnchor a.kind = false)
    {f g : Token → Token} (alike : ∀ b, c.Alike a b → c.Alike (f a) (g b))
    (written : x.textOf (f a) = c.word h)
    (targets : ∀ k, (f a).literal.aliasTarget? = some k → c.paired k ∧ Anchored x k) :
    Twins c (x.modify h f) (y.modify (c.partner h) g) := by
  obtain ⟨b, other, same⟩ := twins.get? paired found
  constructor
  · exact ⟨twins.sound.1.modify h f, by rw [twins.sound.1.ids_modify]; exact twins.sound.2⟩
  · exact ⟨twins.sound'.1.modify _ g, by rw [twins.sound'.1.ids_modify]; exact twins.sound'.2⟩
  · intro k known
    rw [TokenStream.get?_modify, TokenStream.get?_modify]
    by_cases here : k = h
    · subst here
      rw [if_pos rfl, if_pos rfl, found, other]
      exact .some (alike b same)
    · have apart : c.partner k ≠ c.partner h := fun equal => here (c.injective known paired equal)
      rw [if_neg here, if_neg apart]
      exact twins.tokens k known
  · intro k d known held
    rw [TokenStream.get?_modify] at held
    split_ifs at held with here
    · subst here
      rw [found] at held
      cases held
      exact (textOf_modify found free f fun k target => (targets k target).2).trans written
    · rw [textOf_modify found free f fun j target => (twins.targets k d j held target).2]
      exact twins.words k d known held
  · intro k d j held target
    rw [TokenStream.get?_modify] at held
    split_ifs at held with here
    · rw [found] at held
      cases held
      exact ⟨(targets j target).1, .modify found free (targets j target).2 f⟩
    · obtain ⟨known', anchored⟩ := twins.targets k d j held target
      exact ⟨known', .modify found free anchored f⟩
  · intro k d j held target
    rw [TokenStream.get?_modify] at held
    split_ifs at held with here
    · rw [other] at held
      cases held
      rw [(alike b same).2, Literal.aliasTarget?_redirect, Option.map_eq_some_iff] at target
      obtain ⟨i, target, rfl⟩ := target
      exact ⟨i, rfl, (targets i target).1, .modify found free (targets i target).2 f⟩
    · obtain ⟨i, named, known, anchored⟩ := twins.targets' k d j held target
      exact ⟨i, named, known, .modify found free anchored f⟩

end Twins

end Grammar

end YaraRules

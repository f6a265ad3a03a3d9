import YaraRules.Proofs.NameRoles
import YaraRules.Proofs.NameTries
import YaraRules.Proofs.ReadRows

/-! Names while a source is read. Tokens that were read get parts in naming things, and
what has a part keeps it: only a token that was just read changes, which has no
part yet and which nothing refers to. -/

namespace YaraRules

open TokenStream (Plain ButFor)

/-- The token is in the stream itself, owns no stream and is written by its own literal. -/
structure TokenStream.Loose (s : TokenStream) (h : Handle) : Prop where
  own : h.chain = s.chain.id
  bare : h.index ∉ s.nested.map (·.1)
  plain : ∃ a, s.get? h = some a ∧ Plain a

theorem TokenStream.Loose.beside {s after : TokenStream} {h k : Handle} (loose : s.Loose k) (change : ButFor h s after)
    (apart : k ≠ h) : after.Loose k where
  own := loose.own.trans (TokenStream.id_of_ids change.ids).symm
  bare := change.places ▸ loose.bare
  plain := (change.others k apart).symm ▸ loose.plain

namespace Grammar

/-- The token names no symbol yet, names are texts, and the name of a string has its sigil. -/
structure Raw (a : Token) : Prop where
  unbound : a.literal.asSymbol? = none
  sigil : a.kind = .stringName → a.literal.text.toList.head? = some '$'
  text : a.kind = .identifier ∨ a.kind = .stringName → a.literal.asText?.isSome

/-- What is known while a part of a rule is read. -/
structure Ledger where
  /-- No stream of the source has an identity before this one. -/
  first : ChainId
  /-- Rules that were read before the source. -/
  before : List (String × Handle)
  rules : List (String × Handle)
  held : List Rule
  strings : NameTrie StringDefinition

/-- Names of the strings so far. -/
def Ledger.ids (l : Ledger) : List Handle := l.strings.values.map (·.id)

/-- Names and strings in an expression of the rule. -/
abbrev Ledger.uses (l : Ledger) (e : Expr) : List Role := e.uses l.ids

/-- Tokens of the source have their parts, and those that were read but have none are still to be used. -/
structure Linking (l : Ledger) (roles : List Role) (spare : List Handle) (s : State) : Prop where
  sound : s.source.tokens.Sound
  distinct : s.source.tokens.ids.Nodup
  ids : ∀ id ∈ s.source.tokens.ids, l.first ≤ id ∧ id < s.nextId
  loose : ∀ h ∈ spare ++ s.source.rest, s.source.tokens.Loose h
  apart : (spare ++ s.source.rest).Nodup
  rules : s.ruleNames = l.rules
  held : s.rules = l.held
  strings : s.strings = l.strings
  unique : (l.rules.map (·.1)).Nodup
  older : ∀ rule ∈ l.before, rule.2.chain < l.first
  named : ∀ rule ∈ l.rules, rule ∈ l.before ∨ .ruleName rule.2 rule.1 ∈ roles
  known : ∀ string ∈ l.strings.values, .stringName string.id ∈ roles
  placed : ∀ role ∈ roles, role.token ∉ spare ++ s.source.rest ∧
    ∃ a, s.source.tokens.get? role.token = some a ∧ role.Suits l.rules s.source.tokens a
  aliases : ∀ h a target, s.source.tokens.get? h = some a → a.literal.aliasTarget? = some target →
    Role.Leads roles h target

namespace Linking

variable {l : Ledger} {roles : List Role} {spare : List Handle} {s : State} {h : Handle}

/-- A token that was read changes or is taken out, and gets its parts. -/
theorem change (link : Linking l roles (h :: spare) s) {tokens : TokenStream} (change : ButFor h s.source.tokens tokens)
    (more : List Role) (fits : ∀ role ∈ more, role.token = h ∧ ∃ a, tokens.get? h = some a ∧
    role.Suits l.rules tokens a)
    (aliased : ∀ a target, tokens.get? h = some a → a.literal.aliasTarget? = some target →
      Role.Leads (roles ++ more) h target) :
    Linking l (roles ++ more) spare (s.onTokens fun _ => tokens) := by
  have free : h ∉ spare ++ s.source.rest := (List.nodup_cons.mp link.apart).1
  have outside : ∀ role ∈ roles, role.token ≠ h := fun role member same => (link.placed role member).1 (by simp [same])
  refine {
    sound := change.sound
    distinct := change.ids ▸ link.distinct
    ids := change.ids ▸ link.ids
    loose := fun k member => (link.loose k (List.mem_cons_of_mem _ member)).beside change fun same =>
      free (same ▸ member)
    apart := (List.nodup_cons.mp link.apart).2
    rules := link.rules
    held := link.held
    strings := link.strings
    unique := link.unique
    older := link.older
    named := fun rule member => (link.named rule member).imp_right (List.mem_append_left _)
    known := fun string member => List.mem_append_left _ (link.known string member)
    placed := fun role member => ?_
    aliases := fun k a target found points => ?_ }
  · rcases List.mem_append.mp member with old | new
    · obtain ⟨taken, a, found, suits⟩ := link.placed role old
      exact ⟨fun inside => taken (List.mem_cons_of_mem _ inside), a, (change.others _ (outside role old)).trans found,
        suits.of_sees fun rule _ => change.sees _ _⟩
    · obtain ⟨rfl, stored⟩ := fits role new
      exact ⟨free, stored⟩
  · by_cases same : k = h
    · subst same
      exact aliased a target found points
    · exact (link.aliases k a target ((change.others k same).symm.trans found) points).mono
        (List.subset_append_left _ _)

theorem fewer {few : List Handle} (link : Linking l roles spare s) (fewer : few.Sublist spare) :
    Linking l roles few s :=
  have within := fewer.append_right s.source.rest
  { link with
    loose := fun k member => link.loose k (within.subset member)
    apart := within.nodup link.apart
    placed := fun role member =>
      ⟨fun inside => (link.placed role member).1 (within.subset inside), (link.placed role member).2⟩ }

theorem shuffle {others : List Handle} (link : Linking l roles spare s) (same : spare.Perm others) :
    Linking l roles others s :=
  have whole := same.append_right s.source.rest
  { link with
    loose := fun k member => link.loose k (whole.mem_iff.mpr member)
    apart := whole.nodup_iff.mp link.apart
    placed := fun role member => ⟨fun inside => (link.placed role member).1 (whole.mem_iff.mpr inside),
      (link.placed role member).2⟩ }

/-- A token that was read changes and is still to be used. -/
theorem hold (link : Linking l roles (h :: spare) s) {tokens : TokenStream} (change : ButFor h s.source.tokens tokens)
    (plain : ∃ a, tokens.get? h = some a ∧ Plain a) : Linking l roles (h :: spare) (s.onTokens fun _ => tokens) := by
  obtain ⟨b, stored, own⟩ := plain
  have dropped : Linking l (roles ++ []) spare (s.onTokens fun _ => tokens) :=
    link.change change [] nofun fun a target found points => by
      obtain rfl : b = a := Option.some.inj (stored.symm.trans found)
      cases (show b.literal.aliasTarget? = none from own).symm.trans points
  rw [List.append_nil] at dropped
  have loose := link.loose h (by simp)
  exact { dropped with
    loose := fun k member => (List.mem_cons.mp member).elim (fun same => same ▸ {
      own := loose.own.trans (TokenStream.id_of_ids change.ids).symm
      bare := change.places ▸ loose.bare
      plain := ⟨b, stored, own⟩ }) (dropped.loose k)
    apart := link.apart
    placed := fun role member => ⟨(link.placed role member).1, (dropped.placed role member).2⟩ }

private theorem regroup (link : Linking l roles spare s) {others : List Role}
    (same : ∀ role, role ∈ others ↔ role ∈ roles) :
    Linking l others spare s := { link with
  named := fun rule member => (link.named rule member).imp_right (same _).mpr
  known := fun string member => (same _).mpr (link.known string member)
  placed := fun role member => link.placed role ((same role).mp member)
  aliases := fun k a target found points => (link.aliases k a target found points).mono fun role => (same role).mpr }

end Linking

/-- A step that is given tokens to use, and that leaves none, gives more tokens their parts. -/
def Links {α : Type} (l : Ledger) (spare : List Handle) (before : List Role) (step : Parse α)
    (after : α → List Role) : Prop :=
  ∀ others roles, Ensures (Linking l (roles ++ before) (spare ++ others)) step
    fun a => Linking l (roles ++ after a) others

/-- A step that gives no token a part. -/
abbrev Quiet {α : Type} (l : Ledger) (step : Parse α) : Prop := Links l [] [] step fun _ => []

namespace Links

variable {α β : Type} {l : Ledger} {spare : List Handle} {before : List Role} {step : Parse α} {next : α → Parse β}
  {row after : α → List Role} {last : β → List Role} {h : Handle}

theorem pure {a : α} (same : ∀ role, role ∈ after a ↔ role ∈ before) : Links l spare before (pure a : Parse α) after :=
  fun _ _ => .pure fun _ link => (link.fewer (List.sublist_append_right _ _)).regroup fun role => by simp [same role]

theorem never (never : Never step) : Links l spare before step after := fun _ _ => .never never

theorem bind (first : Links l [] [] step row) (rest : ∀ a, Links l spare (before ++ row a) (next a) last) :
    Links l spare before (step >>= next) last := by
  intro others roles
  refine .bind (m := fun a => Linking l (roles ++ (before ++ row a)) (spare ++ others)) ?_ fun a => rest a others roles
  simpa using first (spare ++ others) (roles ++ before)

theorem skip (first : Quiet l step) (rest : ∀ a, Links l spare before (next a) last) :
    Links l spare before (step >>= next) last :=
  .bind first fun a => by simpa using rest a

theorem seq (first : Links l [] before step row) (rest : ∀ a, Links l [] (row a) (next a) last) :
    Links l [] before (step >>= next) last :=
  fun others roles => .bind (first others roles) fun a => rest a others roles

/-- Tokens are given away to a step that uses them all. -/
theorem spendAll (first : Links l spare [] step row) (rest : ∀ a, Links l [] (before ++ row a) (next a) last) :
    Links l spare before (step >>= next) last := by
  intro others roles
  refine .bind (m := fun a => Linking l (roles ++ (before ++ row a)) others) ?_ fun a => rest a others roles
  simpa using first others (roles ++ before)

theorem fewer {few : List Handle} (fewer : few.Sublist spare) (rest : Links l few before step after) :
    Links l spare before step after :=
  fun others roles => .consider _ (fun _ link => link.fewer (fewer.append_right others)) (rest others roles)

theorem drop (rest : Links l spare before step after) : Links l (h :: spare) before step after :=
  rest.fewer (List.sublist_cons_self h spare)

theorem ite {c : Prop} [Decidable c] {other : Parse α} (yes : c → Links l spare before step after)
    (no : ¬ c → Links l spare before other after) : Links l spare before (if c then step else other) after := by
  split_ifs with holds
  · exact yes holds
  · exact no holds

theorem guard {c : Prop} [Decidable c] {rest : Parse β} (never : Never step) (links : Links l spare before rest last) :
    Links l spare before (if c then step >>= next else rest) last :=
  .ite (fun _ => .never (never.bind next)) fun _ => links

theorem forM {check : α → Parse PUnit} (each : ∀ a, Quiet l (check a)) (items : List α) :
    Quiet l (items.forM check) := by
  induction items with
  | nil => exact .pure fun _ => .rfl
  | cons item rest ih => exact .skip (each item) fun _ => ih

theorem mapM {look : α → Parse β} (each : ∀ a, Quiet l (look a)) (items : List α) : Quiet l (items.mapM look) := by
  induction items with
  | nil => exact .pure fun _ => .rfl
  | cons item rest ih =>
    rw [List.mapM_cons]
    exact .skip (each item) fun _ => .skip ih fun _ => .pure fun _ => .rfl

theorem still (same : ∀ s a s', step s = .ok (a, s') → s' = s) : Quiet l step :=
  fun _ _ s a s' done link => same s a s' done ▸ link

end Links

variable {α β : Type} {l : Ledger}

/-! ### Elementary steps -/

theorem tokens_links : Quiet l tokens := .still fun _ _ _ done => by cases done; rfl

theorem textOf_links (h : Handle) : Quiet l (textOf h) := .still fun _ _ _ done => by cases done; rfl

theorem locationOf_links (h : Handle) : Quiet l (locationOf h) := .still fun _ _ _ done => by cases done; rfl

theorem get_links : Quiet l (get : Parse State) := .still fun _ _ _ done => by cases done; rfl

theorem peekAt_links (n : Nat) : Quiet l (peekAt? n) := .still fun _ _ _ done => by cases done; rfl

theorem peek_links : Quiet l peek? := peekAt_links 0

theorem peekHandle_links (n : Nat) : Quiet l (peekHandle? n) := .still fun _ _ _ done => by cases done; rfl

theorem remaining_links : Quiet l remaining := .still fun _ _ _ done => by cases done; rfl

theorem advance_ensures {roles : List Role} {spare : List Handle} :
    Ensures (Linking l roles spare) advance fun h => Linking l roles (h :: spare) := by
  intro s h s' done link
  obtain ⟨rest, read, rfl⟩ := advance_done done
  have same : ∀ k, k ∈ (h :: spare) ++ rest ↔ k ∈ spare ++ s.source.rest := by
    intro k
    simp only [read, List.mem_append, List.mem_cons]
    tauto
  exact { link with
    loose := fun k member => link.loose k ((same k).mp member)
    apart := List.perm_middle.nodup_iff.mp (read ▸ link.apart)
    placed := fun role member =>
      ⟨fun inside => (link.placed role member).1 ((same _).mp inside), (link.placed role member).2⟩ }

section

variable {spare : List Handle} {before : List Role} {next : Handle → Parse β} {last : β → List Role}

theorem Links.advance (rest : ∀ h, Links l (h :: spare) before (next h) last) :
    Links l spare before (Grammar.advance >>= next) last :=
  fun others roles => .bind advance_ensures fun h => rest h others roles

theorem expect_ensures {roles : List Role} (kind : TokenKind) :
    Ensures (Linking l roles spare) (expect kind) fun h => Linking l roles (h :: spare) := by
  refine .bind (m := fun _ => Linking l roles spare) ?_ fun _ => .ite (fun _ => advance_ensures)
    fun _ => .never (never_unexpected _)
  simpa using peek_links spare roles

theorem Links.expect {kind : TokenKind} (rest : ∀ h, Links l (h :: spare) before (next h) last) :
    Links l spare before (Grammar.expect kind >>= next) last :=
  fun others roles => .bind (expect_ensures kind) fun h => rest h others roles

end

theorem advance_links : Quiet l advance :=
  fun _ _ => .weaken advance_ensures fun h _ link => link.fewer (List.sublist_cons_self h _)

theorem expect_links (kind : TokenKind) : Quiet l (expect kind) :=
  fun _ _ => .weaken (expect_ensures kind) fun h _ link => link.fewer (List.sublist_cons_self h _)

theorem accept_links (kind : TokenKind) : Quiet l (accept? kind) :=
  .skip peek_links fun _ => .ite (fun _ => .skip advance_links fun _ => .pure fun _ => .rfl)
    fun _ => .pure fun _ => .rfl

/-- A token that was read changes and has its own literal. -/
theorem modify_ensures {roles : List Role} {spare : List Handle} {h : Handle} {f : Token → Token}
    (plain : ∀ a, Plain a → Plain (f a)) :
    Ensures (Linking l roles (h :: spare)) (modifyTokens (·.modify h f)) fun _ => Linking l roles (h :: spare) := by
  refine .modify fun s link => ?_
  obtain ⟨a, stored, own⟩ := (link.loose h (by simp)).plain
  refine link.hold (link.sound.modify_butFor h f) ⟨f a, ?_, plain a own⟩
  rw [TokenStream.get?_modify, if_pos rfl, stored]
  rfl

section

variable {spare : List Handle} {before : List Role} {next : Unit → Parse β} {last : β → List Role} {h : Handle}

/-- A token gets another kind before it is used. -/
theorem Links.refine {kind : TokenKind} (rest : Links l (h :: spare) before (next ⟨⟩) last) :
    Links l (h :: spare) before (Grammar.refine h kind >>= next) last :=
  fun others roles => .bind (modify_ensures fun _ own => own) fun _ => rest others roles

theorem Links.breakAfter {wanted : Bool} (rest : Links l (h :: spare) before (next ⟨⟩) last) :
    Links l (h :: spare) before (Grammar.breakAfter h wanted >>= next) last :=
  fun others roles => .bind (modify_ensures fun _ own => own) fun _ => rest others roles

theorem Links.setLiteral {literal : Literal} (own : literal.aliasTarget? = none)
    (rest : Links l (h :: spare) before (next ⟨⟩) last) :
    Links l (h :: spare) before (Grammar.setLiteral h literal >>= next) last :=
  fun others roles => .bind (modify_ensures fun _ _ => own) fun _ => rest others roles

end

theorem Linking.restock {roles : List Role} {spare : List Handle} {s t : State} (link : Linking l roles spare s)
    (source : t.source = s.source) (nextId : t.nextId = s.nextId) (rules : t.ruleNames = s.ruleNames)
    (held : t.rules = s.rules) (known : ∀ string ∈ t.strings.values, .stringName string.id ∈ roles) :
    Linking { l with strings := t.strings } roles spare t where
  sound := source ▸ link.sound
  distinct := source ▸ link.distinct
  ids := by simpa only [source, nextId] using link.ids
  loose := source ▸ link.loose
  apart := source ▸ link.apart
  rules := rules.trans link.rules
  held := held.trans link.held
  strings := rfl
  unique := link.unique
  older := link.older
  named := link.named
  known := known
  placed := source ▸ link.placed
  aliases := source ▸ link.aliases

/-- What does not concern tokens and names is put aside. -/
theorem aside_links {f : State → State} (same : ∀ s, (f s).source = s.source ∧ (f s).nextId = s.nextId ∧
    (f s).ruleNames = s.ruleNames ∧ (f s).rules = s.rules ∧ (f s).strings = s.strings) : Quiet l (modify f) := by
  intro others roles
  refine .modify fun s link => ?_
  obtain ⟨source, nextId, rules, held, strings⟩ := same s
  have strings := strings.trans link.strings
  have moved := link.restock source nextId rules held (strings ▸ link.known)
  rwa [strings] at moved

private theorem words_ensures {roles : List Role} {separator kind : TokenKind} : ∀ bound spare,
    Ensures (Linking l roles spare)
    (separated separator (expect kind) bound) fun words => Linking l roles (words ++ spare)
  | 0, spare => .bind (expect_ensures kind) fun _ => .pure fun _ link => link
  | bound + 1, spare => by
    refine .bind (expect_ensures kind) fun first => ?_
    refine .bind (m := fun _ => Linking l roles (first :: spare))
      (by simpa using accept_links separator (first :: spare) roles)
      fun next => ?_
    cases next with
    | none => exact .pure fun _ link => link
    | some _ =>
      refine .bind (words_ensures bound (first :: spare)) fun words => .pure fun s link => ?_
      exact link.shuffle List.perm_middle

theorem Links.words {separator kind : TokenKind} {bound : Nat} {before : List Role} {next : List Handle → Parse β}
    {last : β → List Role} (rest : ∀ words, Links l words before (next words) last) :
    Links l [] before (separated separator (Grammar.expect kind) bound >>= next) last :=
  fun others roles => .bind (words_ensures bound others) fun words => rest words others roles

theorem itemsWhile_links {starts : TokenKind → Bool} {item : Parse α} {row : α → List Role}
    (each : Links l [] [] item row) : ∀ bound, Links l [] []
    (itemsWhile starts item bound) fun items => items.flatMap row
  | 0 => .pure fun _ => .rfl
  | bound + 1 => .skip peek_links fun _ => .ite
    (fun _ => .bind each fun _ => .bind (itemsWhile_links each bound) fun _ => .pure (by simp))
      fun _ => .pure fun _ => .rfl

theorem separated_links {separator : TokenKind} {item : Parse α} {row : α → List Role}
    (each : Links l [] [] item row) : ∀ bound, Links l [] []
    (separated separator item bound) fun items => items.flatMap row
  | 0 => .bind each fun _ => .pure (by simp)
  | bound + 1 => .bind each fun _ => .skip (accept_links separator) fun next => by
    cases next with
    | none => exact .pure (by simp)
    | some _ => exact .bind (separated_links each bound) fun _ => .pure (by simp)

theorem checkEscapes_links (h : Handle) : Quiet l (checkEscapes h) := by
  refine .skip tokens_links fun tokens => ?_
  split
  · split
    · exact .pure fun _ => .rfl
    · exact .skip (textOf_links h) fun _ => .never (never_fail _ _)
  · exact .pure fun _ => .rfl

theorem readRegexp_links (h : Handle) : Quiet l (readRegexp h) := by
  refine .skip (textOf_links h) fun text => ?_
  split
  · exact .pure fun _ => .rfl
  · exact .never (never_fail _ _)

end Grammar

end YaraRules

import YaraRules.Proofs.LexerSpans
import YaraRules.Proofs.ReadFiles
import YaraRules.Proofs.ReadRuleNames

/-! Names in files. The rules of an included file are listed among those of the file
around it, so names in later conditions resolve to them; a name in the included file
resolves to rules of the files around it as well, but does not see them. -/

namespace YaraRules

open TokenStream (Plain Joined)

/-! ### Sources -/

namespace Lexer

theorem makeToken_fresh {kind : TokenKind} {bytes : Bytes} {location : Location} {token : Token}
    (done : makeToken kind bytes location = .ok token) (sigil : kind = .stringName → bytes.head? = some 0x24) :
    Plain token ∧ Grammar.Raw token := by
  unfold makeToken at done
  split at done
  · cases done
    exact ⟨rfl, rfl, nofun, fun _ => rfl⟩
  · split at done
    next literal found =>
      cases done
      unfold integerLiteral? at found
      dsimp only at found
      split_ifs at found <;> cases found <;> exact ⟨rfl, rfl, nofun, nofun⟩
    · cases done
  · cases done
    exact ⟨rfl, rfl, nofun, nofun⟩
  · cases done
    exact ⟨rfl, rfl, nofun, nofun⟩
  next =>
    cases done
    refine ⟨rfl, rfl, fun named => ?_, fun _ => rfl⟩
    obtain ⟨rest, rfl⟩ : ∃ rest, bytes = 0x24 :: rest := List.head?_eq_some_iff.mp (sigil named)
    show (Text.readable (0x24 :: rest)).toList.head? = _
    simp [Text.readable, Text.readableFrom, Utf8.first?]

private theorem tokensFrom_fresh {path : Option String} : ∀ (fuel : Nat) (s : State) (words : List Token),
    tokensFrom path fuel s = .ok words → ∀ token ∈ words, Plain token ∧ Grammar.Raw token
  | 0, _, _, done, token, member => by
    cases done
    cases member
  | fuel + 1, s, words, done, token, member => by
    unfold tokensFrom at done
    split_ifs at done
    · cases done
      cases member
    · split at done
      next s' _ => exact tokensFrom_fresh fuel s' words done token member
      next word s' found =>
        cases rest : tokensFrom path fuel s' with
        | error e => simp [rest, bind, Except.bind] at done
        | ok more =>
          obtain rfl : word :: more = words := by simpa [rest, bind, Except.bind, pure, Except.pure] using done
          rcases List.mem_cons.mp member with rfl | later
          · obtain ⟨kind, _, _, taken, made, _⟩ := step_found found
            refine makeToken_fresh made fun named => ?_
            subst named
            exact taken.shaped
          · exact tokensFrom_fresh fuel s' more rest token later
      · cases done

end Lexer

namespace Grammar

/-- Tokens that are not used for anything yet. -/
structure Untouched (tokens : TokenStream) : Prop where
  sound : tokens.Sound
  bare : tokens.nested = []
  fresh : ∀ entry ∈ tokens.chain.entries, Plain entry.2 ∧ Raw entry.2

theorem Untouched.push {tokens : TokenStream} (untouched : Untouched tokens) {token : Token}
    (fresh : Plain token ∧ Raw token) : Untouched (tokens.push token).2 := by
  obtain ⟨_, entries, _⟩ := untouched.sound.chain.insertAt (List.append_nil tokens.chain.entries).symm token
  have parts : (tokens.push token).2.chain.entries = tokens.chain.entries ++ [((tokens.push token).1, token)] := entries
  refine ⟨(untouched.sound.push token).1, untouched.bare, fun entry member => ?_⟩
  rw [parts] at member
  rcases List.mem_append.mp member with old | new
  · exact untouched.fresh entry old
  · obtain rfl := List.mem_singleton.mp new
    exact fresh

theorem sourceOf_untouched {id : ChainId} {path : Option String} {content : Bytes} {source : Source}
    (done : sourceOf id path content = .ok source) : Untouched source.tokens := by
  refine sourceOf_holds done (Untouched ·.tokens)
    ⟨TokenStream.sound_empty id, rfl, by simp [TokenStream.empty]⟩
      fun words found token member stream rest untouched => ?_
  exact untouched.push (Lexer.tokensFrom_fresh _ _ _ found token member)

theorem Untouched.get? {tokens : TokenStream} (untouched : Untouched tokens) {h : Handle} {a : Token}
    (own : h.chain = tokens.chain.id) (stored : tokens.get? h = some a) : Plain a ∧ Raw a := by
  rw [TokenStream.get?_top _ own] at stored
  exact untouched.fresh _ ((untouched.sound.chain.get?_eq_some _ _).mp stored)

/-! ### Rules of a source -/

/-- What is known after rules were read, each with its name. -/
def Ledger.after (l : Ledger) (read : List (String × Rule)) : Ledger :=
  { l with
    rules := (read.map fun rule => (rule.1, rule.2.name)).reverse ++ l.rules
    held := l.held ++ read.map (·.2)
    strings := {} }

def rolesOf (read : List (String × Rule)) : List Role := read.flatMap fun rule => rule.2.roles rule.1

/-- The rules that were read so far have their parts. -/
def Accounted (l : Ledger) (s : State) : Prop := ∃ read, Linking (l.after read) (rolesOf read) [] s

variable {l : Ledger}

theorem Accounted.none {s : State} (link : Linking l [] [] s) (empty : l.strings = {}) : Accounted l s := by
  have same : l.after [] = l := by simp [Ledger.after, ← empty]
  exact ⟨[], by rwa [same]⟩

theorem Source.Fresh.link {source : Source} {id : ChainId} {s : State} (fresh : source.Fresh id)
    (untouched : Untouched source.tokens) (same : s.source = source) (next : s.nextId = id + 1)
    (strings : s.strings = {}) (unique : (s.ruleNames.map (·.1)).Nodup)
    (older : ∀ rule ∈ s.ruleNames, rule.2.chain < id) : Linking ⟨id, s.ruleNames, s.ruleNames, s.rules, {}⟩ []
    [] s := by
  subst same
  have plain (h : Handle) (a : Token) (stored : s.source.tokens.get? h = some a) : Plain a := by
    have own : h.chain = s.source.tokens.chain.id := by
      simpa [fresh.lone.ids] using TokenStream.mem_ids_of_get? stored
    exact (untouched.get? own stored).1
  refine {
    sound := untouched.sound
    distinct := by simp [fresh.lone.ids]
    ids := by simp [fresh.lone.ids, fresh.named, next]
    loose := fun h member => ?_
    apart := fresh.listed.nodup fresh.lone.tidy.code_nodup
    rules := rfl
    held := rfl
    strings := strings
    unique := unique
    older := older
    named := fun rule member => .inl member
    known := nofun
    placed := nofun
    aliases := fun h a target stored points => ?_ }
  · have own : h.chain = s.source.tokens.chain.id := (fresh.chain h member).trans fresh.named.symm
    obtain ⟨a, stored, _⟩ := fresh.lone.tidy.get?_of_code (fresh.listed.subset member)
    exact ⟨own, by simp [untouched.bare], a, stored, plain h a stored⟩
  · cases (show a.literal.aliasTarget? = none from plain h a stored).symm.trans points

theorem importDirective_links : Quiet l importDirective := by
  refine .skip (expect_links _) fun keyword => .skip (expect_links _) fun name =>
    .skip (textOf_links name) fun text => ?_
  refine .skip get_links fun s => ?_
  dsimp only
  split
  · exact aside_links fun _ => ⟨rfl, rfl, rfl, rfl, rfl⟩
  · exact .never (never_fail _ _)

theorem Accounted.pass {α : Type} {step : Parse α} (quiet : ∀ l, Quiet l step) :
    Ensures (Accounted l) step fun _ => Accounted l :=
  .each fun read => .weaken (quiet _).passes fun _ _ link => ⟨read, link⟩

theorem Accounted.rule {s between : State} {found : Rule} (accounted : Accounted l s)
    (run : Grammar.rule s = .ok (found, between)) : Accounted l { between with rules := between.rules ++ [found] } := by
  obtain ⟨read, link⟩ := accounted
  obtain ⟨text, link'⟩ := rule_names s found between run link
  have held : between.rules = l.held ++ read.map (·.2) := link'.held
  have listed : Linking { (l.after read).list text found.name with held := between.rules ++ [found] } (rolesOf read ++
    found.roles text) []
      { between with rules := between.rules ++ [found] } := { link' with held := rfl }
  refine ⟨read ++ [(text, found)], ?_⟩
  simpa [Ledger.after, Ledger.list, rolesOf, held] using listed

/-! ### Includes -/

private theorem loose_attach {s sub after : TokenStream} {h k : Handle} (sound : s.Sound)
    (joined : Joined k s sub after) (loose : s.Loose h) (given : s.Loose k) (apart : h ≠ k) : after.Loose h where
  own := loose.own.trans joined.id.symm
  bare := by
    obtain ⟨a, stored, _⟩ := loose.plain
    obtain ⟨b, stored', _⟩ := given.plain
    rw [TokenStream.get?_top s loose.own] at stored
    rw [TokenStream.get?_top s given.own] at stored'
    have first := (sound.chain.get?_eq_some _ _).mp stored
    have second := (sound.chain.get?_eq_some _ _).mp stored'
    have slots : h.index ≠ k.index := fun same => apart (congrArg (·.1) (sound.chain.entry_unique first second same))
    rw [joined.places, List.mem_append, List.mem_singleton, not_or]
    exact ⟨loose.bare, slots⟩
  plain := by
    obtain ⟨a, stored, plain⟩ := loose.plain
    exact ⟨a, (joined.outer h (TokenStream.mem_ids_of_get? stored)).trans stored, plain⟩

theorem directive_named {roles : List Role} :
    Ensures (Linking l roles []) directive fun d => Linking l roles [d.keyword] := by
  refine .bind (expect_ensures _) fun keyword => .bind (expect_links _).passes fun token => ?_
  exact .bind (textOf_links token).passes fun text => .bind get_links.passes fun s => .pure fun _ link => link

/-- Nothing was read of an included file, in which names resolve to the rules before. -/
theorem Linking.enter {roles : List Role} {spare : List Handle} {s : State} {d : Directive} {place : FileTree.Place}
    {content : Bytes} {source : Source} (link : Linking l roles spare s) (empty : l.strings = {})
    (opens : s.Opens d place content source) : Linking ⟨s.nextId, s.ruleNames, s.ruleNames, s.rules, {}⟩ [] []
    (s.enter source place) := by
  have older : ∀ rule ∈ s.ruleNames, rule.2.chain < s.nextId := by
    intro rule member
    rcases link.named rule (link.rules ▸ member) with old | new
    · obtain ⟨low, high⟩ := link.ids _ s.source.tokens.id_mem_ids
      exact Nat.lt_trans (Nat.lt_of_lt_of_le (link.older rule old) low) high
    · obtain ⟨_, a, stored, _⟩ := link.placed _ new
      exact (link.ids _ (TokenStream.mem_ids_of_get? stored)).2
  exact (sourceOf_fresh opens.lexed).link (s := s.enter source place) (sourceOf_untouched opens.lexed) rfl rfl
    (link.strings.trans empty) (link.rules ▸ link.unique) older

/-- The tokens of an included file are put where the directive stands, and what resolved to a rule before still does. -/
theorem Accounted.rejoin {read : List (String × Rule)} {keyword : Handle} {s s₁ : State}
    (link : Linking (l.after read) (rolesOf read) [keyword] s)
    (named : Accounted ⟨s.nextId, s.ruleNames, s.ruleNames, s.rules,
    {}⟩ s₁) : Joined keyword s.source.tokens s₁.source.tokens (s.rejoin keyword s₁).source.tokens ∧
    Accounted l (s.rejoin keyword s₁) := by
  obtain ⟨more, below⟩ := named
  have apart : s.source.tokens.ids.Disjoint s₁.source.tokens.ids := fun id here there =>
    Nat.not_lt.mpr (below.ids id there).1 (link.ids id here).2
  have loose := link.loose keyword (by simp)
  obtain ⟨b, live, _⟩ := loose.plain
  have entry : (keyword, b) ∈ s.source.tokens.chain.entries :=
    (link.sound.chain.get?_eq_some _ _).mp (TokenStream.get?_top _ loose.own ▸ live)
  obtain ⟨tokens, done⟩ := link.sound.attach_ok s₁.source.tokens (List.mem_map_of_mem entry)
  have joined := link.sound.attach_joined below.sound link.distinct below.distinct apart loose.bare done
  obtain rfl : (s.rejoin keyword s₁).source.tokens = tokens := by simp [State.rejoin, done, Except.toOption]
  refine ⟨joined, read ++ more, ?_⟩
  -- The identities of the file come after those that there were before.
  have later : s.nextId ≤ s₁.nextId := by
    obtain ⟨low, high⟩ := below.ids _ s₁.source.tokens.id_mem_ids
    exact Nat.le_of_lt (Nat.lt_of_le_of_lt low high)
  have earlier : l.first ≤ s.nextId := by
    obtain ⟨low, high⟩ := link.ids _ s.source.tokens.id_mem_ids
    exact Nat.le_of_lt (Nat.lt_of_le_of_lt low high)
  have outside : ∀ rule ∈ (l.after read).rules, rule.2.chain ∉ s₁.source.tokens.ids := by
    intro rule member inside
    rcases link.named rule member with old | new
    · have low : s.nextId ≤ rule.2.chain := (below.ids _ inside).1
      exact absurd (Nat.lt_of_lt_of_le (link.older rule old) (Nat.le_trans earlier low)) (Nat.lt_irrefl _)
    · obtain ⟨_, a, stored, _⟩ := link.placed _ new
      exact apart (TokenStream.mem_ids_of_get? stored) inside
  have grown : s₁.ruleNames = (l.after (read ++ more)).rules := by
    rw [below.rules]
    simp [Ledger.after, link.rules]
  have known : (l.after read).rules ⊆ (l.after (read ++ more)).rules := by
    intro rule member
    rw [← grown, below.rules]
    exact List.mem_append_right _ (link.rules ▸ member)
  have parts : rolesOf (read ++ more) = rolesOf read ++ rolesOf more := by simp [rolesOf]
  rw [parts]
  exact {
    sound := joined.sound
    distinct := joined.distinct
    ids := fun id member => by
      rcases (joined.ids id).mp member with here | there
      · obtain ⟨low, high⟩ := link.ids id here
        exact ⟨low, Nat.lt_of_lt_of_le high later⟩
      · obtain ⟨low, high⟩ := below.ids id there
        exact ⟨Nat.le_trans earlier low, high⟩
    loose := fun h member => loose_attach link.sound joined (link.loose h (List.mem_cons_of_mem _ member)) loose
      fun same => (List.nodup_cons.mp link.apart).1 (same ▸ member)
    apart := (List.nodup_cons.mp link.apart).2
    rules := grown
    held := by
      have inner : s₁.rules = s.rules ++ more.map (·.2) := below.held
      have outer : s.rules = l.held ++ read.map (·.2) := link.held
      show s₁.rules = _
      rw [inner, outer]
      simp [Ledger.after]
    strings := below.strings
    unique := by
      rw [← grown, below.rules]
      exact below.unique
    older := link.older
    named := fun rule member => by
      rw [← grown, below.rules] at member
      rcases below.named rule member with old | new
      · exact (link.named rule (link.rules ▸ old)).imp_right (List.mem_append_left _)
      · exact .inr (List.mem_append_right _ new)
    known := fun _ member => absurd member List.not_mem_nil
    placed := fun role member => by
      rcases List.mem_append.mp member with old | new
      · obtain ⟨taken, a, stored, suits⟩ := link.placed role old
        have inside := TokenStream.mem_ids_of_get? stored
        refine ⟨fun waits => taken (List.mem_cons_of_mem _ waits), a, (joined.outer _ inside).trans stored, ?_⟩
        refine (suits.of_sees fun rule listed => ?_).mono known
        simp [joined.seesOuter _ _ inside, outside rule listed]
      · obtain ⟨_, a, stored, suits⟩ := below.placed role new
        have inside := TokenStream.mem_ids_of_get? stored
        refine ⟨fun waits => ?_, a, (joined.inner _ inside).trans stored, ?_⟩
        · have own := (link.loose _ (List.mem_cons_of_mem keyword waits)).own
          exact apart s.source.tokens.id_mem_ids (own ▸ inside)
        · have suits : role.Suits _ (s.rejoin keyword s₁).source.tokens a :=
            suits.of_sees fun rule _ => joined.seesInner _ _ inside
          rwa [← below.rules, grown] at suits
    aliases := fun h a target stored points => by
      rcases (joined.ids h.chain).mp (TokenStream.mem_ids_of_get? stored) with here | there
      · exact (link.aliases h a target ((joined.outer h here).symm.trans stored) points).mono
          (List.subset_append_left _ _)
      · exact (below.aliases h a target ((joined.inner h there).symm.trans stored) points).mono
          (List.subset_append_right _ _) }

/-- Reading accounts for rules and their names. -/
theorem Course.accounted {s s' : State} {pieces : List Piece} (course : Course s pieces s') :
    ∀ {l}, l.strings = {} → Accounted l s → Accounted l s' := by
  induction course with
  | done s => exact fun _ accounted => accounted
  | imported run rest ih =>
    exact fun empty accounted => ih empty (Accounted.pass (fun _ => importDirective_links) _ _ _ run accounted)
  | ruled run rest ih => exact fun empty accounted => ih empty (accounted.rule run)
  | skipped run located shut again rest ih =>
    rintro l empty ⟨read, link⟩
    exact ih empty ⟨read, (directive_named _ _ _ run link).fewer (List.nil_sublist _)⟩
  | opened run opens inside rest ihInside ihRest =>
    rintro l empty ⟨read, link⟩
    have outer := directive_named _ _ _ run link
    have inner := ihInside rfl (.none (outer.enter rfl opens) rfl)
    exact ihRest empty (Accounted.rejoin outer inner).2

/-- The names of the rules that were read are written in the source. -/
theorem Linking.nameText {read : List (String × Rule)} {spare : List Handle} {s : State}
    (link : Linking (l.after read) (rolesOf read) spare s) :
    ∀ rule ∈ read, rule.2.nameText s.source.tokens = rule.1 := by
  intro rule member
  have listed : Role.ruleName rule.2.name rule.1 ∈ rolesOf read :=
    List.mem_flatMap.mpr ⟨rule, member, by simp [Rule.roles]⟩
  obtain ⟨_, a, stored, kind, plain, word⟩ := link.placed _ listed
  have stored : s.source.tokens.get? rule.2.name = some a := stored
  rw [Rule.nameText, TokenStream.text_eq _ stored, TokenStream.textOf_plain _ plain, kind]
  exact word

theorem Linking.linked {read : List (String × Rule)} {s : State} {file : RuleFile}
    {id : ChainId} (link : Linking (Ledger.after ⟨id, [], [], [], {}⟩ read) (rolesOf read) [] s)
    (tokens : file.tokens = s.source.tokens) (rules : file.rules = s.rules) : file.Linked := by
  have held : file.rules = read.map (·.2) := rules.trans (link.held.trans (List.nil_append _))
  have whole : file.rules.map (fun rule => (rule.nameText file.tokens, rule)) = read := by
    rw [held, List.map_map, tokens]
    exact (List.map_congr_left fun rule member => by simp [link.nameText rule member]).trans (List.map_id _)
  have names : file.names = read.map fun rule => (rule.1, rule.2.name) := by
    rw [← whole, List.map_map]
    rfl
  have roles : file.roles = rolesOf read := by
    rw [← whole, rolesOf, List.flatMap_map]
    rfl
  have listing : (Ledger.after ⟨id, [], [], [], {}⟩ read).rules = file.names.reverse := by simp [Ledger.after, names]
  exact {
    sound := tokens ▸ link.sound
    distinct := tokens ▸ link.distinct
    unique := by simpa [listing] using link.unique
    placed := fun role member => by
      obtain ⟨_, a, stored, suits⟩ := link.placed role (roles ▸ member)
      exact ⟨a, tokens ▸ stored, tokens ▸ suits.mono (listing ▸ List.reverse_subset.mpr (List.Subset.refl _))⟩
    aliases := roles ▸ tokens ▸ link.aliases }

theorem Source.Fresh.accounted {source : Source} {id : ChainId} (fresh : source.Fresh id)
    (untouched : Untouched source.tokens) {settings : Settings} {tree : FileTree} {opened : List FileTree.Place} :
    Accounted ⟨id, [], [], [], {}⟩ (.first settings tree source (id + 1) opened) :=
  .none (fresh.link (s := .first settings tree source (id + 1) opened) untouched rfl rfl rfl List.nodup_nil nofun) rfl

private theorem readSource_linked {settings : Settings} {tree : FileTree} {source : Source} {id : ChainId}
    {opened : List FileTree.Place} {file : RuleFile} (fresh : source.Fresh id) (untouched : Untouched source.tokens)
    (done : readSource settings tree source (id + 1) opened = .ok file) : file.Linked := by
  obtain ⟨pieces, last, course, rfl⟩ := readSource_course done
  obtain ⟨read, link⟩ := course.accounted rfl (fresh.accounted untouched)
  exact link.linked rfl rfl

end Grammar

namespace RuleFile

/-- Files that were read, from a text or from a path. -/
inductive Read : RuleFile → Prop
  | ofSource {settings : Settings} {tree : FileTree} {id : ChainId} {content : Bytes} {file : RuleFile}
      (done : RuleFile.ofSource settings tree id content = .ok file) : Read file
  | ofPath {settings : Settings} {tree : FileTree} {id : ChainId} {path : String} {file : RuleFile}
      (done : RuleFile.ofPath settings tree id path = .ok file) : Read file

theorem ofSource_done {settings : Settings} {tree : FileTree} {id : ChainId} {content : Bytes} {file : RuleFile}
    (done : ofSource settings tree id content = .ok file) : ∃ source, Grammar.sourceOf id none content = .ok source ∧
      Grammar.readSource settings tree source (id + 1) [] = .ok file := by
  unfold ofSource at done
  cases found : Grammar.sourceOf id none content with
  | error e => simp [found, bind, Except.bind] at done
  | ok source =>
    rw [found] at done
    exact ⟨source, rfl, done⟩

/-- Whatever is read was taken apart into tokens. -/
theorem Read.lexed : ∀ {file : RuleFile}, file.Read → ∃ settings tree path id content source opened,
    Grammar.sourceOf id path content = .ok source ∧ Grammar.readSource settings tree source (id + 1) opened = .ok file
  | _, @Read.ofSource settings tree id content file done => by
    obtain ⟨source, found, read⟩ := ofSource_done done
    exact ⟨_, _, _, _, _, _, _, found, read⟩
  | _, @Read.ofPath settings tree id path file done => by
    unfold RuleFile.ofPath at done
    cases read : tree.read path with
    | error fault =>
      rw [read] at done
      cases done
    | ok content =>
      rw [read] at done
      cases found : Grammar.sourceOf id (some path) content with
      | error e => simp [found, bind, Except.bind] at done
      | ok source =>
        simp only [found] at done
        exact ⟨_, _, _, _, _, _, _, found, done⟩

/-- Whatever is read is a source of fresh tokens. -/
theorem Read.source {file : RuleFile} (read : file.Read) : ∃ settings tree source id opened, source.Fresh id ∧
    Grammar.Untouched source.tokens ∧ Grammar.readSource settings tree source (id + 1) opened = .ok file := by
  obtain ⟨_, _, _, _, _, _, _, found, done⟩ := read.lexed
  exact ⟨_, _, _, _, _, Grammar.sourceOf_fresh found, Grammar.sourceOf_untouched found, done⟩

/-- Names in a file that was read lead to the rules and strings that they stand for. -/
theorem Read.linked {file : RuleFile} (read : file.Read) : file.Linked := by
  obtain ⟨_, _, _, _, _, fresh, untouched, done⟩ := read.source
  exact Grammar.readSource_linked fresh untouched done

end RuleFile

end YaraRules

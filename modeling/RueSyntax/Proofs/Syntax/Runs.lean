import RueSyntax.Proofs.State.Leads
import RueSyntax.Proofs.Syntax.Proper

/-!
# A proper phrase is read from its tokens

For each category there is a place in the parser where its phrases are read, and a state behind
them that holds the phrase (`Phrase.Runs`).  There is one lemma for each way to make a phrase: the
parts run, so the whole does.  An expression needs two conditions on the place: the operators that
wait there bind looser than the expression, and where a statement may begin, the expression does
not begin with a name that would be read as `let`.
-/

namespace RueSyntax

open State

/-! ### Single tokens -/

theorem State.Leads.step {s s' s'' : State Bytes} {t : Terminal} {w : Bytes}
    {ts : List (Token Bytes)} (hs : Leads s' ts s'') (h : s.step t w = some s')
    (hw : t.HasText w) (ht : t ≠ .identifier) : Leads s ((t, w) :: ts) s'' :=
  .cons (accepts_of_step h hw ht) hs

/-- A name is taken where no keyword is. -/
theorem State.Leads.name {s s' s'' : State Bytes} {w : Bytes} {ts : List (Token Bytes)}
    (hs : Leads s' ts s'') (h : s.step .identifier w = some s')
    (hw : Terminal.identifier.HasText w) (hk : ∀ k, s.step (.word k) w = none) :
    Leads s ((.identifier, w) :: ts) s'' :=
  .cons ⟨h, hw, fun _ k _ => hk k⟩ hs

/-- A name that may begin an operand is taken as one. -/
theorem State.BeforeOperand.accepts_name {ps : List (Pending Bytes)}
    {k : Context Bytes .expression} {s : State Bytes} {w : Bytes} (hs : BeforeOperand ps k s)
    (hw : Terminal.identifier.HasText w) (ho : w ∉ operandWords)
    (hl : (∃ opening ss k', s = .item opening ss k') → w ≠ letText) :
    ∃ s', s.Accepts .identifier w s' ∧ BehindName w ps k s' := by
  have hmem : ∀ kw : Keyword, Keyword.ofBytes? w = some kw →
      kw ≠ .ifWord ∧ kw ≠ .whileWord ∧ kw ≠ .trueWord ∧ kw ≠ .falseWord := by
    intro kw hkw
    have hsp : w = Bytes.ofString kw.spelling := Terminal.hasText_word.mpr hkw
    refine ⟨?_, ?_, ?_, ?_⟩ <;> (rintro rfl; exact ho (by rw [hsp]; simp [operandWords]))
  have hbegin : ∀ (qs : List (Pending Bytes)) (k' : Context Bytes .expression) (kw : Keyword),
      Keyword.ofBytes? w = some kw → beginOperand qs k' (.word kw) w = none := by
    intro qs k' kw hkw
    obtain ⟨h1, h2, h3, h4⟩ := hmem kw hkw
    cases kw with
    | ifWord => exact (h1 rfl).elim
    | whileWord => exact (h2 rfl).elim
    | trueWord => exact (h3 rfl).elim
    | falseWord => exact (h4 rfl).elim
    | _ => rfl
  cases hs with
  | item opening ss k =>
    refine ⟨_, ⟨rfl, hw, fun _ kw hkw => ?_⟩, .item opening ss k⟩
    by_cases hlet : kw = .letWord
    · subst hlet
      exact (hl ⟨opening, ss, k, rfl⟩ (Terminal.hasText_word.mpr hkw)).elim
    · have hb := hbegin [] (.bare opening ss k) kw hkw
      cases kw with
      | letWord => exact (hlet rfl).elim
      | _ => exact hb
  | operand ps k =>
    exact ⟨_, ⟨rfl, hw, fun _ kw hkw => hbegin ps k kw hkw⟩, .operand ps k⟩
  | operandParen opening ps k =>
    exact ⟨_, ⟨rfl, hw, fun _ kw hkw => hbegin [] _ kw hkw⟩, .operand [] _⟩
  | argumentsStart name opening ps k =>
    exact ⟨_, ⟨rfl, hw, fun _ kw hkw => hbegin [] _ kw hkw⟩, .operand [] _⟩

namespace Phrase

/-- The tokens of the phrase have texts of their terminals. -/
def Spelled {c : Category} (p : Phrase Bytes c) : Prop := ∀ a ∈ p.tokens, a.1.HasText a.2

/-- The parser reads the phrase where phrases of its category stand. -/
def Runs : {c : Category} → Phrase Bytes c → Prop
  | .functions, fs => Leads (.top .noFunctions) fs.tokens (.top fs)
  | .function, f => ∀ fs, Leads (.top fs) f.tokens (.top (.moreFunctions fs f))
  | .parameters, ps => ∀ fs word name,
    Leads (.parametersStart fs word name) ps.tokens (.returnArrow fs word name ps)
  | .parameterList, ps => ∀ fs word name opening,
    Leads (.firstParameter fs word name opening) ps.tokens
      (.parametersRest fs word name opening ps)
  | .parameter, p => ∀ fs word name opening before s,
    (∀ a, s.step .identifier a = some (.parameterColon fs word name opening before a)) →
    (∀ k a, s.step (.word k) a = none) →
    Leads s p.tokens (.parametersRest fs word name opening (addParameter p before))
  | .type, ty => ∀ s g, (∀ t a, s.step t a = (typeOf t a).map g) → Leads s ty.tokens (g ty)
  | .block, b => ∀ k s, (∀ a, s.step (.mark .openBrace) a = some (.item a .noStatements k)) →
    Leads s b.tokens (closeBlock b k)
  | .statements, ss => ∀ opening k,
    Leads (.item opening .noStatements k) ss.tokens (.item opening ss k)
  | .statement, st => ∀ opening ss k, BeginsProperly st.tokens →
    Leads (.item opening ss k) st.tokens (.item opening (.moreStatements ss st) k)
  | .expression, e => ∀ ps k s, BeforeOperand ps k s →
    (∀ p ∈ ps.head?, p.operator.level < e.level) →
    ((∃ opening ss k', s = .item opening ss k') → BeginsProperly e.tokens) →
    ∃ s', Leads s e.tokens s' ∧ BehindOperand (e.unfold ps).1 (e.unfold ps).2 k s'
  | .conditional, c => ∀ bs ps k s,
    (∀ a, s.step (.word .ifWord) a = some (.operand [] (.ifCondition a bs ps k))) →
    ∃ s', Leads s c.tokens s' ∧ BehindOperand (.ifExpression (Branch.close c bs)) ps k s'
  | .elseClause, r => ∀ word condition body bs ps k,
    ∃ s', Leads (.afterThen word condition body bs ps k) r.tokens s' ∧
      BehindOperand (.ifExpression (Branch.close (.ifElse word condition body r) bs)) ps k s'
  | .arguments, args => ∀ name ps k s, BehindName name ps k s →
    Leads s args.tokens (.afterOperand (.call name args) ps k)
  | .argumentList, es => ∀ name opening ps k,
    ∃ s', Leads (.argumentsStart name opening ps k) es.tokens s' ∧
      (∀ a, s'.step (.mark .closeParen) a =
        some (.afterOperand (.call name (.someArguments opening es a)) ps k)) ∧
      ∀ a, s'.step (.mark .comma) a = some (.operand [] (.nextArgument name opening es a ps k))

/-- A whole expression is read up to what ends it. -/
theorem Runs.whole {e : Phrase Bytes .expression} (h : e.Runs) {k : Context Bytes .expression}
    {s : State Bytes} (hs : BeforeOperand [] k s)
    (hb : (∃ opening ss k', s = .item opening ss k') → BeginsProperly e.tokens) :
    ∃ s', Leads s e.tokens s' ∧
      ∀ t a s'', closeExpression e k t a = some s'' → s'.step t a = some s'' := by
  obtain ⟨s', hl, hbeh⟩ := h [] k s hs nofun hb
  refine ⟨s', hl, fun t a s'' hc => hbeh.step_close ?_⟩
  rwa [close_unfold]

/-- An expression behind a token that only expressions follow. -/
theorem Runs.operand {e : Phrase Bytes .expression} (h : e.Runs) (k : Context Bytes .expression) :
    ∃ s', Leads (.operand [] k) e.tokens s' ∧
      ∀ t a s'', closeExpression e k t a = some s'' → s'.step t a = some s'' := by
  refine h.whole (.operand [] k) ?_
  rintro ⟨opening, ss, k', hn⟩
  cases hn

/-! ### Functions -/

theorem runs_primitive {p : Primitive} {word : Bytes}
    (hw : (Terminal.word p.keyword).HasText word) : (primitive p word).Runs := by
  intro s g hs
  refine (Leads.nil _).step ?_ hw nofun
  rw [hs]
  cases p <;> rfl

theorem runs_unitType {sign : Bytes} (hw : Terminal.unitType.HasText sign) :
    (unitType sign).Runs := by
  intro s g hs
  refine (Leads.nil _).step ?_ hw nofun
  rw [hs]
  rfl

theorem runs_parameter {name colon : Bytes} {ty : Phrase Bytes .type}
    (hname : Terminal.identifier.HasText name) (hcolon : (Terminal.mark .colon).HasText colon)
    (hty : ty.Runs) : (parameter name colon ty).Runs := by
  intro fs word fname opening before s hs hk
  have hrest := hty (.parameterType fs word fname opening before name colon)
    (fun ty =>
      .parametersRest fs word fname opening (addParameter (.parameter name colon ty) before))
    (fun _ _ => rfl)
  exact (hrest.step rfl hcolon nofun).name (hs name) hname fun k => hk k name

theorem runs_oneParameter {p : Phrase Bytes .parameter} (hp : p.Runs) :
    (oneParameter p).Runs := by
  intro fs word name opening
  refine hp fs word name opening none _ (fun _ => rfl) fun k _ => ?_
  cases k <;> rfl

theorem runs_moreParameters {ps : Phrase Bytes .parameterList} {comma : Bytes}
    {p : Phrase Bytes .parameter} (hcomma : (Terminal.mark .comma).HasText comma)
    (hps : ps.Runs) (hp : p.Runs) : (moreParameters ps comma p).Runs := by
  intro fs word name opening
  have hlast := hp fs word name opening (some (ps, comma))
    (.nextParameter fs word name opening ps comma) (fun _ => rfl) fun k _ => by cases k <;> rfl
  exact (hps fs word name opening).append (hlast.step rfl hcomma nofun)

theorem runs_noParameters {opening closing : Bytes}
    (ho : (Terminal.mark .openParen).HasText opening)
    (hc : (Terminal.mark .closeParen).HasText closing) : (noParameters opening closing).Runs := by
  intro fs word name
  have hclose : Leads (.firstParameter fs word name opening) [(.mark .closeParen, closing)]
      (.returnArrow fs word name (.noParameters opening closing)) :=
    (Leads.nil _).step rfl hc nofun
  exact hclose.step rfl ho nofun

theorem runs_someParameters {opening closing : Bytes} {ps : Phrase Bytes .parameterList}
    (ho : (Terminal.mark .openParen).HasText opening)
    (hc : (Terminal.mark .closeParen).HasText closing) (hps : ps.Runs) :
    (someParameters opening ps closing).Runs := by
  intro fs word name
  have hclose : Leads (.parametersRest fs word name opening ps) [(.mark .closeParen, closing)]
      (.returnArrow fs word name (.someParameters opening ps closing)) :=
    (Leads.nil _).step rfl hc nofun
  exact ((hps fs word name opening).append hclose).step rfl ho nofun

theorem runs_function {word name arrow : Bytes} {ps : Phrase Bytes .parameters}
    {ty : Phrase Bytes .type} {body : Phrase Bytes .block}
    (hword : (Terminal.word .fnWord).HasText word) (hname : Terminal.identifier.HasText name)
    (harrow : (Terminal.mark .arrow).HasText arrow) (hps : ps.Runs) (hty : ty.Runs)
    (hbody : body.Runs) : (function word name ps arrow ty body).Runs := by
  intro fs
  have hblock := hbody (.functionBody ⟨fs, word, name, ps, arrow, ty⟩) (.bodyStart _) fun _ => rfl
  have hreturn := hty (.returnType fs word name ps arrow)
    (fun ty => .bodyStart ⟨fs, word, name, ps, arrow, ty⟩) fun _ _ => rfl
  have htail := (hps fs word name).append ((hreturn.append hblock).step rfl harrow nofun)
  have hhead : Leads (.functionName fs word)
      ((.identifier, name) :: (ps.tokens ++ (.mark .arrow, arrow) :: (ty.tokens ++ body.tokens)))
      (.top (.moreFunctions fs (.function word name ps arrow ty body))) :=
    htail.name rfl hname fun k => by cases k <;> rfl
  exact hhead.step rfl hword nofun

theorem runs_moreFunctions {fs : Phrase Bytes .functions} {f : Phrase Bytes .function}
    (hfs : fs.Runs) (hf : f.Runs) : (moreFunctions fs f).Runs :=
  Leads.append hfs (hf fs)

/-! ### Blocks and statements -/

theorem runs_block {opening closing : Bytes} {ss : Phrase Bytes .statements}
    (ho : (Terminal.mark .openBrace).HasText opening)
    (hc : (Terminal.mark .closeBrace).HasText closing) (hss : ss.Runs) :
    (block opening ss closing).Runs := by
  intro k s hs
  have hclose : Leads (.item opening ss k) [(.mark .closeBrace, closing)]
      (closeBlock (.block opening ss closing) k) := (Leads.nil _).step rfl hc nofun
  exact ((hss opening k).append hclose).step (hs opening) ho nofun

theorem runs_blockWithValue {opening closing : Bytes} {ss : Phrase Bytes .statements}
    {value : Phrase Bytes .expression} (ho : (Terminal.mark .openBrace).HasText opening)
    (hc : (Terminal.mark .closeBrace).HasText closing) (hss : ss.Runs) (hvalue : value.Runs)
    (hb : BeginsProperly value.tokens) : (blockWithValue opening ss value closing).Runs := by
  intro k s hs
  obtain ⟨s', hl, hend⟩ := hvalue.whole (.item opening ss k) fun _ => hb
  have hclose : Leads s' [(.mark .closeBrace, closing)]
      (closeBlock (.blockWithValue opening ss value closing) k) :=
    (Leads.nil _).step (hend _ _ _ rfl) hc nofun
  exact ((hss opening k).append (hl.append hclose)).step (hs opening) ho nofun

theorem runs_noStatements : (noStatements : Phrase Bytes .statements).Runs :=
  fun _ _ => .nil _

theorem runs_moreStatements {ss : Phrase Bytes .statements} {st : Phrase Bytes .statement}
    (hss : ss.Runs) (hst : st.Runs) (hb : BeginsProperly st.tokens) :
    (moreStatements ss st).Runs :=
  fun opening k => (hss opening k).append (hst opening ss k hb)

theorem runs_letStatement {word name colon equals semicolon : Bytes} {ty : Phrase Bytes .type}
    {value : Phrase Bytes .expression} (hword : (Terminal.word .letWord).HasText word)
    (hname : Terminal.identifier.HasText name) (hcolon : (Terminal.mark .colon).HasText colon)
    (hequals : (Terminal.mark .equals).HasText equals)
    (hsemicolon : (Terminal.mark .semicolon).HasText semicolon) (hty : ty.Runs)
    (hvalue : value.Runs) : (letStatement word name colon ty equals value semicolon).Runs := by
  intro opening ss k _
  obtain ⟨s', hl, hend⟩ := hvalue.operand (.letValue opening ss word name colon ty equals k)
  have hclose : Leads s' [(.mark .semicolon, semicolon)]
      (.item opening (.moreStatements ss
        (.letStatement word name colon ty equals value semicolon)) k) :=
    (Leads.nil _).step (hend _ _ _ rfl) hsemicolon nofun
  have hassign : Leads (.letEquals opening ss k word name colon ty)
      ((.mark .equals, equals) :: (value.tokens ++ [(.mark .semicolon, semicolon)])) _ :=
    (hl.append hclose).step rfl hequals nofun
  have htype := hty (.letType opening ss k word name colon)
    (fun ty => .letEquals opening ss k word name colon ty) fun _ _ => rfl
  have hrest : Leads (.letColon opening ss k word name) _ _ :=
    (htype.append hassign).step rfl hcolon nofun
  have hlet : Leads (.letName opening ss k word) _ _ :=
    hrest.name rfl hname fun k => by cases k <;> rfl
  exact hlet.step rfl hword nofun

theorem runs_assignment {name equals semicolon : Bytes} {value : Phrase Bytes .expression}
    (hname : Terminal.identifier.HasText name) (ho : name ∉ operandWords)
    (hequals : (Terminal.mark .equals).HasText equals)
    (hsemicolon : (Terminal.mark .semicolon).HasText semicolon) (hvalue : value.Runs) :
    (assignment name equals value semicolon).Runs := by
  intro opening ss k hb
  obtain ⟨s', hl, hend⟩ := hvalue.operand (.assignedValue opening ss name equals k)
  have hclose : Leads s' [(.mark .semicolon, semicolon)]
      (.item opening (.moreStatements ss (.assignment name equals value semicolon)) k) :=
    (Leads.nil _).step (hend _ _ _ rfl) hsemicolon nofun
  have hlet : name ≠ letText := fun hn => hb (by rw [hn]; rfl)
  obtain ⟨s₁, hacc, hbeh⟩ :=
    (BeforeOperand.item opening ss k).accepts_name hname ho fun _ => hlet
  have hs₁ : s₁ = .itemName opening ss k name := Option.some.inj hacc.step.symm
  subst hs₁
  exact .cons hacc ((hl.append hclose).step rfl hequals nofun)

theorem runs_expressionStatement {e : Phrase Bytes .expression} {semicolon : Bytes}
    (hsemicolon : (Terminal.mark .semicolon).HasText semicolon) (he : e.Runs) :
    (expressionStatement e semicolon).Runs := by
  intro opening ss k hb
  obtain ⟨s', hl, hend⟩ := he.whole (.item opening ss k) fun _ => hb.of_append
  have hclose : Leads s' [(.mark .semicolon, semicolon)]
      (.item opening (.moreStatements ss (.expressionStatement e semicolon)) k) :=
    (Leads.nil _).step (hend _ _ _ rfl) hsemicolon nofun
  exact hl.append hclose

/-! ### Operands -/

theorem runs_reference {name : Bytes} (hname : Terminal.identifier.HasText name)
    (ho : name ∉ operandWords) : (reference name).Runs := by
  intro ps k s hs _ hb
  obtain ⟨s', hacc, hbeh⟩ := hs.accepts_name hname ho fun h hn => hb h (by rw [hn]; rfl)
  exact ⟨s', hacc.leads, .name hbeh⟩

theorem runs_integer {digits : Bytes} (hw : Terminal.integer.HasText digits) :
    (integer digits).Runs := by
  intro ps k s hs _ _
  exact ⟨_, (Leads.nil _).step (hs.step nofun rfl) hw nofun, .operand _ ps k⟩

theorem runs_boolean {value : Bool} {word : Bytes}
    (hw : (Terminal.word (truthWord value)).HasText word) : (boolean value word).Runs := by
  intro ps k s hs _ _
  refine ⟨.afterOperand (.boolean value word) ps k, ?_, .operand _ ps k⟩
  refine (Leads.nil _).step (hs.step nofun ?_) hw nofun
  cases value <;> rfl

theorem runs_unit {opening closing : Bytes} (ho : (Terminal.mark .openParen).HasText opening)
    (hc : (Terminal.mark .closeParen).HasText closing) : (unit opening closing).Runs := by
  intro ps k s hs _ _
  have hclose : Leads (.operandParen opening ps k) [(.mark .closeParen, closing)]
      (.afterOperand (.unit opening closing) ps k) := (Leads.nil _).step rfl hc nofun
  exact ⟨_, hclose.step (hs.step nofun rfl) ho nofun, .operand _ ps k⟩

theorem runs_parenthesized {opening closing : Bytes} {e : Phrase Bytes .expression}
    (ho : (Terminal.mark .openParen).HasText opening)
    (hc : (Terminal.mark .closeParen).HasText closing) (he : e.Runs) :
    (parenthesized opening e closing).Runs := by
  intro ps k s hs _ _
  obtain ⟨s', hl, hend⟩ := he.whole (.operandParen opening ps k) (by rintro ⟨_, _, _, hn⟩; cases hn)
  have hclose : Leads s' [(.mark .closeParen, closing)]
      (.afterOperand (.parenthesized opening e closing) ps k) :=
    (Leads.nil _).step (hend _ _ _ rfl) hc nofun
  exact ⟨_, (hl.append hclose).step (hs.step nofun rfl) ho nofun, .operand _ ps k⟩

theorem runs_call {name : Bytes} {args : Phrase Bytes .arguments}
    (hname : Terminal.identifier.HasText name) (ho : name ∉ operandWords) (hargs : args.Runs) :
    (call name args).Runs := by
  intro ps k s hs _ hb
  obtain ⟨s', hacc, hbeh⟩ := hs.accepts_name hname ho fun h hn => hb h (by rw [hn]; rfl)
  exact ⟨_, .cons hacc (hargs name ps k s' hbeh), .operand _ ps k⟩

theorem runs_noArguments {opening closing : Bytes}
    (ho : (Terminal.mark .openParen).HasText opening)
    (hc : (Terminal.mark .closeParen).HasText closing) : (noArguments opening closing).Runs := by
  intro name ps k s hs
  have hclose : Leads (.argumentsStart name opening ps k) [(.mark .closeParen, closing)]
      (.afterOperand (.call name (.noArguments opening closing)) ps k) :=
    (Leads.nil _).step rfl hc nofun
  exact hclose.step (Transition.call hs).step ho nofun

theorem runs_someArguments {opening closing : Bytes} {es : Phrase Bytes .argumentList}
    (ho : (Terminal.mark .openParen).HasText opening)
    (hc : (Terminal.mark .closeParen).HasText closing) (hes : es.Runs) :
    (someArguments opening es closing).Runs := by
  intro name ps k s hs
  obtain ⟨s', hl, hparen, -⟩ := hes name opening ps k
  have hclose : Leads s' [(.mark .closeParen, closing)] _ :=
    (Leads.nil _).step (hparen closing) hc nofun
  exact (hl.append hclose).step (Transition.call hs).step ho nofun

theorem runs_oneArgument {e : Phrase Bytes .expression} (he : e.Runs) : (oneArgument e).Runs := by
  intro name opening ps k
  obtain ⟨s', hl, hend⟩ :=
    he.whole (.argumentsStart name opening ps k) (by rintro ⟨_, _, _, hn⟩; cases hn)
  exact ⟨s', hl, fun a => hend _ a _ rfl, fun a => hend _ a _ rfl⟩

theorem runs_moreArguments {es : Phrase Bytes .argumentList} {comma : Bytes}
    {e : Phrase Bytes .expression} (hcomma : (Terminal.mark .comma).HasText comma) (hes : es.Runs)
    (he : e.Runs) : (moreArguments es comma e).Runs := by
  intro name opening ps k
  obtain ⟨s₁, hl₁, -, hmore⟩ := hes name opening ps k
  obtain ⟨s₂, hl₂, hend⟩ := he.operand (.nextArgument name opening es comma ps k)
  exact ⟨s₂, hl₁.append (hl₂.step (hmore comma) hcomma nofun), fun a => hend _ a _ rfl,
    fun a => hend _ a _ rfl⟩

/-! ### Conditionals and loops -/

theorem runs_ifExpression {c : Phrase Bytes .conditional} (hc : c.Runs) :
    (ifExpression c).Runs := by
  intro ps k s hs _ _
  exact hc [] ps k s fun a => hs.step nofun rfl

/-- The word `if`, its condition and its block. -/
theorem leads_then {word : Bytes} {condition : Phrase Bytes .expression}
    {body : Phrase Bytes .block} (hw : (Terminal.word .ifWord).HasText word)
    (hcondition : condition.Runs) (hbody : body.Runs) (bs : List (Branch Bytes))
    (ps : List (Pending Bytes)) (k : Context Bytes .expression) {s : State Bytes}
    (hs : ∀ a, s.step (.word .ifWord) a = some (.operand [] (.ifCondition a bs ps k))) :
    Leads s ((.word .ifWord, word) :: (condition.tokens ++ body.tokens))
      (.afterThen word condition body bs ps k) := by
  obtain ⟨s', hl, hend⟩ := hcondition.operand (.ifCondition word bs ps k)
  have hthen := hbody (.thenBody word condition bs ps k) s' fun a => hend _ a _ rfl
  exact (hl.append hthen).step (hs word) hw nofun

theorem runs_ifThen {word : Bytes} {condition : Phrase Bytes .expression}
    {body : Phrase Bytes .block} (hw : (Terminal.word .ifWord).HasText word)
    (hcondition : condition.Runs) (hbody : body.Runs) : (ifThen word condition body).Runs := by
  intro bs ps k s hs
  exact ⟨_, leads_then hw hcondition hbody bs ps k hs, .thenBody word condition body bs ps k⟩

theorem runs_ifElse {word : Bytes} {condition : Phrase Bytes .expression}
    {body : Phrase Bytes .block} {rest : Phrase Bytes .elseClause}
    (hw : (Terminal.word .ifWord).HasText word) (hcondition : condition.Runs)
    (hbody : body.Runs) (hrest : rest.Runs) : (ifElse word condition body rest).Runs := by
  intro bs ps k s hs
  obtain ⟨s', hl, hbeh⟩ := hrest word condition body bs ps k
  refine ⟨s', ?_, hbeh⟩
  have hall := (leads_then hw hcondition hbody bs ps k hs).append hl
  rw [List.cons_append, List.append_assoc] at hall
  exact hall

theorem runs_elseBlock {word : Bytes} {body : Phrase Bytes .block}
    (hw : (Terminal.word .elseWord).HasText word) (hbody : body.Runs) :
    (elseBlock word body).Runs := by
  intro iword condition then_ bs ps k
  have hblock := hbody (.elseBody ⟨iword, condition, then_, word⟩ bs ps k)
    (.afterElse ⟨iword, condition, then_, word⟩ bs ps k) fun _ => rfl
  exact ⟨_, hblock.step rfl hw nofun, .operand _ ps k⟩

theorem runs_elseIf {word : Bytes} {c : Phrase Bytes .conditional}
    (hw : (Terminal.word .elseWord).HasText word) (hc : c.Runs) : (elseIf word c).Runs := by
  intro iword condition then_ bs ps k
  obtain ⟨s', hl, hbeh⟩ := hc (⟨iword, condition, then_, word⟩ :: bs) ps k
    (.afterElse ⟨iword, condition, then_, word⟩ bs ps k) fun _ => rfl
  exact ⟨s', hl.step rfl hw nofun, hbeh⟩

theorem runs_whileLoop {word : Bytes} {condition : Phrase Bytes .expression}
    {body : Phrase Bytes .block} (hw : (Terminal.word .whileWord).HasText word)
    (hcondition : condition.Runs) (hbody : body.Runs) :
    (whileLoop word condition body).Runs := by
  intro ps k s hs _ _
  obtain ⟨s', hl, hend⟩ := hcondition.operand (.whileCondition word ps k)
  have hblock := hbody (.whileBody word condition ps k) s' fun a => hend _ a _ rfl
  exact ⟨_, (hl.append hblock).step (hs.step nofun rfl) hw nofun, .operand _ ps k⟩

/-! ### Operators -/

/-- The left operand is complete when the operator is read, and the right one then begins with that
operator waiting. -/
theorem runs_binary {left right : Phrase Bytes .expression} {o : Operator} {sign : Bytes}
    (hsign : (Terminal.operator o).HasText sign) (hproper : (binary left o sign right).Proper)
    (hleft : left.Runs) (hright : right.Runs) : (binary left o sign right).Runs := by
  obtain ⟨hl, -, hle, hlt⟩ := hproper
  intro ps k s hs hhead hb
  have hps : ∀ p ∈ ps.head?, p.operator.level < o.level := hhead
  have hps' : ∀ p ∈ ps.head?, p.operator.level < left.level := fun p hp =>
    Nat.lt_of_lt_of_le (hps p hp) hle
  obtain ⟨s₁, hl₁, hbeh₁⟩ := hleft ps k s hs hps' fun h => (hb h).of_append
  have hreduce : Pending.reduce o.level (left.unfold ps).1 (left.unfold ps).2 = (left, ps) := by
    rw [reduce_unfold left ps hl hle, reduce_of_head left hps]
  have hop := hbeh₁.step_operator o sign
  rw [hreduce] at hop
  have hhead₂ : ∀ p ∈ (⟨left, o, sign⟩ :: ps : List (Pending Bytes)).head?,
      p.operator.level < right.level := by
    intro p hp
    cases hp
    exact hlt
  obtain ⟨s₂, hl₂, hbeh₂⟩ := hright (⟨left, o, sign⟩ :: ps) k _ (.operand _ k) hhead₂
    (by rintro ⟨_, _, _, hn⟩; cases hn)
  exact ⟨s₂, hl₁.append (hl₂.step hop hsign nofun), hbeh₂⟩

/-- Every proper phrase with texts of its terminals is read. -/
theorem runs_of_proper {c : Category} (p : Phrase Bytes c) (hp : p.Proper) (ht : p.Spelled) :
    p.Runs := by
  induction p with
  | noFunctions => exact .nil _
  | moreFunctions fs f ihs ih =>
    obtain ⟨hfs, hf⟩ := List.forall_mem_append.mp ht
    exact runs_moreFunctions (ihs hp.1 hfs) (ih hp.2 hf)
  | function word name ps arrow ty body ihps ihty ihbody =>
    simp only [Spelled, tokens, List.forall_mem_cons, List.forall_mem_append] at ht
    obtain ⟨hword, hname, hps, harrow, hty, hbody⟩ := ht
    exact runs_function hword hname harrow (ihps (proper_of_mem ps (by simp)) hps)
      (ihty (proper_of_mem ty (by simp)) hty) (ihbody hp hbody)
  | noParameters opening closing =>
    simp only [Spelled, tokens, List.forall_mem_cons] at ht
    exact runs_noParameters ht.1 ht.2.1
  | someParameters opening ps closing ih =>
    simp only [Spelled, tokens, List.forall_mem_cons, List.forall_mem_append] at ht
    obtain ⟨ho, hps, hc, -⟩ := ht
    exact runs_someParameters ho hc (ih (proper_of_mem ps (by simp)) hps)
  | oneParameter p ih => exact runs_oneParameter (ih (proper_of_mem p (by simp)) ht)
  | moreParameters ps comma p ihs ih =>
    simp only [Spelled, tokens, List.forall_mem_cons, List.forall_mem_append] at ht
    obtain ⟨hps, hcomma, hp⟩ := ht
    exact runs_moreParameters hcomma (ihs (proper_of_mem ps (by simp)) hps)
      (ih (proper_of_mem p (by simp)) hp)
  | parameter name colon ty ih =>
    simp only [Spelled, tokens, List.forall_mem_cons] at ht
    obtain ⟨hname, hcolon, hty⟩ := ht
    exact runs_parameter hname hcolon (ih (proper_of_mem ty (by simp)) hty)
  | primitive p word => exact runs_primitive (ht _ List.mem_cons_self)
  | unitType sign => exact runs_unitType (ht _ List.mem_cons_self)
  | block opening ss closing ih =>
    simp only [Spelled, tokens, List.forall_mem_cons, List.forall_mem_append] at ht
    obtain ⟨ho, hss, hc, -⟩ := ht
    exact runs_block ho hc (ih hp hss)
  | blockWithValue opening ss value closing ihs ih =>
    simp only [Spelled, tokens, List.forall_mem_cons, List.forall_mem_append] at ht
    obtain ⟨ho, hss, hvalue, hc, -⟩ := ht
    exact runs_blockWithValue ho hc (ihs hp.1 hss) (ih hp.2.1 hvalue) hp.2.2
  | noStatements => exact runs_noStatements
  | moreStatements ss s ihs ih =>
    obtain ⟨hss, hs⟩ := List.forall_mem_append.mp ht
    exact runs_moreStatements (ihs hp.1 hss) (ih hp.2.1 hs) hp.2.2
  | letStatement word name colon ty equals value semicolon ihty ihvalue =>
    simp only [Spelled, tokens, List.forall_mem_cons, List.forall_mem_append] at ht
    obtain ⟨hword, hname, hcolon, hty, hequals, hvalue, hsemicolon, -⟩ := ht
    exact runs_letStatement hword hname hcolon hequals hsemicolon
      (ihty (proper_of_mem ty (by simp)) hty) (ihvalue hp hvalue)
  | assignment name equals value semicolon ih =>
    simp only [Spelled, tokens, List.forall_mem_cons, List.forall_mem_append] at ht
    obtain ⟨hname, hequals, hvalue, hsemicolon, -⟩ := ht
    exact runs_assignment hname hp.1 hequals hsemicolon (ih hp.2 hvalue)
  | expressionStatement e semicolon ih =>
    simp only [Spelled, tokens, List.forall_mem_cons, List.forall_mem_append] at ht
    obtain ⟨he, hsemicolon, -⟩ := ht
    exact runs_expressionStatement hsemicolon (ih hp he)
  | reference name => exact runs_reference (ht _ List.mem_cons_self) hp
  | integer digits => exact runs_integer (ht _ List.mem_cons_self)
  | boolean value word => exact runs_boolean (ht _ List.mem_cons_self)
  | unit opening closing =>
    simp only [Spelled, tokens, List.forall_mem_cons] at ht
    exact runs_unit ht.1 ht.2.1
  | parenthesized opening e closing ih =>
    simp only [Spelled, tokens, List.forall_mem_cons, List.forall_mem_append] at ht
    obtain ⟨ho, he, hc, -⟩ := ht
    exact runs_parenthesized ho hc (ih hp he)
  | call name args ih =>
    obtain ⟨hname, hargs⟩ := List.forall_mem_cons.mp ht
    exact runs_call hname hp.1 (ih hp.2 hargs)
  | binary left o sign right ihl ihr =>
    simp only [Spelled, tokens, List.forall_mem_cons, List.forall_mem_append] at ht
    obtain ⟨hleft, hsign, hright⟩ := ht
    exact runs_binary hsign hp (ihl hp.1 hleft) (ihr hp.2.1 hright)
  | ifExpression c ih => exact runs_ifExpression (ih hp ht)
  | whileLoop word condition body ihc ihb =>
    simp only [Spelled, tokens, List.forall_mem_cons, List.forall_mem_append] at ht
    obtain ⟨hw, hcondition, hbody⟩ := ht
    exact runs_whileLoop hw (ihc hp.1 hcondition) (ihb hp.2 hbody)
  | ifThen word condition body ihc ihb =>
    simp only [Spelled, tokens, List.forall_mem_cons, List.forall_mem_append] at ht
    obtain ⟨hw, hcondition, hbody⟩ := ht
    exact runs_ifThen hw (ihc hp.1 hcondition) (ihb hp.2 hbody)
  | ifElse word condition body rest ihc ihb ihr =>
    simp only [Spelled, tokens, List.forall_mem_cons, List.forall_mem_append] at ht
    obtain ⟨hw, hcondition, hbody, hrest⟩ := ht
    exact runs_ifElse hw (ihc hp.1 hcondition) (ihb hp.2.1 hbody) (ihr hp.2.2 hrest)
  | elseBlock word body ih =>
    obtain ⟨hw, hbody⟩ := List.forall_mem_cons.mp ht
    exact runs_elseBlock hw (ih hp hbody)
  | elseIf word c ih =>
    obtain ⟨hw, hc⟩ := List.forall_mem_cons.mp ht
    exact runs_elseIf hw (ih hp hc)
  | noArguments opening closing =>
    simp only [Spelled, tokens, List.forall_mem_cons] at ht
    exact runs_noArguments ht.1 ht.2.1
  | someArguments opening es closing ih =>
    simp only [Spelled, tokens, List.forall_mem_cons, List.forall_mem_append] at ht
    obtain ⟨ho, hes, hc, -⟩ := ht
    exact runs_someArguments ho hc (ih hp hes)
  | oneArgument e ih => exact runs_oneArgument (ih hp ht)
  | moreArguments es comma e ihs ih =>
    simp only [Spelled, tokens, List.forall_mem_cons, List.forall_mem_append] at ht
    obtain ⟨hes, hcomma, he⟩ := ht
    exact runs_moreArguments hcomma (ihs hp.1 hes) (ih hp.2 he)

end Phrase

end RueSyntax

import RueSyntax.Proofs.State.Leads
import RueSyntax.Proofs.Syntax.Proper

/-!
# What is read is proper

Every phrase that the parser has read at some point is proper.  Three things have to be known of a
state for that.  Its waiting operators bind tighter and tighter from the outside in, so that letting
them take their operands, all of them or the tightest, never puts a loose expression to the right of
a tight operator (`Pending.proper_close`, `Pending.proper_reduce`).  Names stand only where no
keyword of the same spelling could be read.  And an expression that stands in a block by itself has
not begun with a name in the spelling of `let`, which `Context.Begun` keeps in mind from its first
token on.
-/

namespace RueSyntax

open Phrase

/-! ### Operators that wait, and branches -/

namespace Pending

/-- Each operator binds no tighter than its left operand, and tighter than the one before it. -/
def Proper : List (Pending Bytes) → Prop
  | [] => True
  | p :: ps => p.left.Proper ∧ p.operator.level ≤ p.left.level ∧
      (∀ q ∈ ps.head?, q.operator.level < p.operator.level) ∧ Proper ps

theorem proper_close {e : Phrase Bytes .expression} {ps : List (Pending Bytes)} (he : e.Proper)
    (hlevel : ∀ p ∈ ps.head?, p.operator.level < e.level) (hps : Proper ps) :
    (close e ps).Proper := by
  induction ps generalizing e with
  | nil => exact he
  | cons p ps ih =>
    obtain ⟨hleft, hle, hhead, hps⟩ := hps
    have hbinary : (Phrase.binary p.left p.operator p.sign e).Proper :=
      ⟨hleft, he, hle, hlevel p rfl⟩
    exact ih hbinary hhead hps

/-- Behind the expression that makes room for an operator of level `n` that operator may wait. -/
theorem proper_reduce {n : Nat} {e : Phrase Bytes .expression} {ps : List (Pending Bytes)}
    (he : e.Proper) (hn : n ≤ e.level) (hlevel : ∀ p ∈ ps.head?, p.operator.level < e.level)
    (hps : Proper ps) :
    (reduce n e ps).1.Proper ∧ n ≤ (reduce n e ps).1.level ∧
      (∀ q ∈ (reduce n e ps).2.head?, q.operator.level < n) ∧ Proper (reduce n e ps).2 := by
  induction ps generalizing e with
  | nil => exact ⟨he, hn, nofun, trivial⟩
  | cons p ps ih =>
    rw [reduce]
    by_cases hp : n ≤ p.operator.level
    · obtain ⟨hleft, hle, hhead, hps⟩ := hps
      have hbinary : (Phrase.binary p.left p.operator p.sign e).Proper :=
        ⟨hleft, he, hle, hlevel p rfl⟩
      rw [if_pos hp]
      exact ih hbinary hp hhead hps
    · rw [if_neg hp]
      have hlt : ∀ q ∈ (p :: ps).head?, q.operator.level < n := by
        intro q hq
        cases hq
        exact Nat.lt_of_not_le hp
      exact ⟨he, hn, hlt, hps⟩

end Pending

namespace Branch

def Proper (bs : List (Branch Bytes)) : Prop := ∀ b ∈ bs, b.condition.Proper ∧ b.body.Proper

theorem proper_nil : Proper [] := fun _ h => (List.not_mem_nil h).elim

theorem proper_close {c : Phrase Bytes .conditional} {bs : List (Branch Bytes)} (hc : c.Proper)
    (hbs : Proper bs) : (close c bs).Proper := by
  induction bs generalizing c with
  | nil => exact hc
  | cons b bs ih =>
    obtain ⟨hb, hbs⟩ := List.forall_mem_cons.mp hbs
    exact ih ⟨hb.1, hb.2, hc⟩ hbs

end Branch

/-! ### What is open around the place being read -/

namespace Context

/-- If an expression that begins with `ts` stands in a block by itself, it has begun, and not with a
name in the spelling of `let`. -/
def Begun : Context Bytes .expression → List (Token Bytes) → Prop
  | bare _ _ _, ts => ∃ t, ts.head? = some t ∧ t ≠ (.identifier, letText)
  | _, _ => True

theorem Begun.append {k : Context Bytes .expression} {ts : List (Token Bytes)} (h : k.Begun ts)
    (us : List (Token Bytes)) : k.Begun (ts ++ us) := by
  cases k with
  | bare opening ss k =>
    obtain ⟨t, ht, hne⟩ := h
    refine ⟨t, ?_, hne⟩
    rw [List.head?_append, ht]
    rfl
  | _ => trivial

/-- An operand that begins with `t` may stand behind the operators `ps`. -/
def Opened (k : Context Bytes .expression) (ps : List (Pending Bytes)) (t : Token Bytes) : Prop :=
  Pending.Proper ps ∧ k.Begun (Pending.tokens ps ++ [t])

/-- What is read is proper, in the context and around it. -/
def Proper : {g : Gap} → Context Bytes g → Prop
  | _, parenthesized opening ps k => k.Opened ps (.mark .openParen, opening) ∧ k.Proper
  | _, firstArgument name _ ps k =>
    name ∉ operandWords ∧ k.Opened ps (.identifier, name) ∧ k.Proper
  | _, nextArgument name _ es _ ps k =>
    es.Proper ∧ name ∉ operandWords ∧ k.Opened ps (.identifier, name) ∧ k.Proper
  | _, ifCondition word bs ps k =>
    Branch.Proper bs ∧ k.Opened ps (.word .ifWord, word) ∧ k.Proper
  | _, whileCondition word ps k => k.Opened ps (.word .whileWord, word) ∧ k.Proper
  | _, letValue _ ss _ _ _ _ _ k => ss.Proper ∧ k.Proper
  | _, assignedValue _ ss name _ k => name ∉ operandWords ∧ name ≠ letText ∧ ss.Proper ∧ k.Proper
  | _, bare _ ss k => ss.Proper ∧ k.Proper
  | _, functionBody h => h.before.Proper
  | _, thenBody word condition bs ps k =>
    condition.Proper ∧ Branch.Proper bs ∧ k.Opened ps (.word .ifWord, word) ∧ k.Proper
  | _, elseBody last bs ps k =>
    Branch.Proper (last :: bs) ∧ k.Opened ps (.word .ifWord, last.word) ∧ k.Proper
  | _, whileBody word condition ps k =>
    condition.Proper ∧ k.Opened ps (.word .whileWord, word) ∧ k.Proper

/-- Whatever follows, the operand has begun; and no other token that is not a name would do worse in
the place of its first one. -/
theorem Opened.begun {k : Context Bytes .expression} {ps : List (Pending Bytes)}
    {t t' : Token Bytes} {ts : List (Token Bytes)} (h : k.Opened ps t)
    (ht : t' = t ∨ t'.1 ≠ .identifier) : k.Begun (Pending.tokens ps ++ t' :: ts) := by
  cases k with
  | bare opening ss k =>
    obtain ⟨first, hfirst, hne⟩ := h.2
    cases hps : Pending.tokens ps with
    | nil =>
      rw [hps] at hfirst
      cases hfirst
      refine ⟨t', rfl, ?_⟩
      rcases ht with rfl | ht
      · exact hne
      · rintro rfl
        exact ht rfl
    | cons first' us =>
      rw [hps] at hfirst
      cases hfirst
      exact ⟨first, rfl, hne⟩
  | _ => trivial

end Context

/-! ### States -/

namespace State

variable {s s' : State Bytes} {ps : List (Pending Bytes)} {k : Context Bytes .expression}
  {e : Phrase Bytes .expression}

/-- The operand `e`, read behind the operators `ps`, and all around it is proper. -/
structure Behind (e : Phrase Bytes .expression) (ps : List (Pending Bytes))
    (k : Context Bytes .expression) : Prop where
  operand : e.Proper
  level : e.level = 4
  pending : Pending.Proper ps
  begun : k.Begun (Pending.tokens ps ++ e.tokens)
  context : k.Proper

/-- What is read is proper. -/
def Proper : State Bytes → Prop
  | top fs | functionName fs _ | parametersStart fs _ _ | firstParameter fs _ _ _
  | nextParameter fs _ _ _ _ _ | parameterColon fs _ _ _ _ _ | parameterType fs _ _ _ _ _ _
  | parametersRest fs _ _ _ _ | returnArrow fs _ _ _ | returnType fs _ _ _ _ => fs.Proper
  | bodyStart h => h.before.Proper
  | item _ ss k | letName _ ss k _ | letColon _ ss k _ _ | letType _ ss k _ _ _
  | letEquals _ ss k _ _ _ _ => ss.Proper ∧ k.Proper
  | itemName _ ss k name => name ∉ operandWords ∧ name ≠ letText ∧ ss.Proper ∧ k.Proper
  | operand ps k => Pending.Proper ps ∧ k.Begun (Pending.tokens ps) ∧ k.Proper
  | operandName name ps k => name ∉ operandWords ∧ k.Opened ps (.identifier, name) ∧ k.Proper
  | operandParen opening ps k => k.Opened ps (.mark .openParen, opening) ∧ k.Proper
  | argumentsStart name _ ps k => name ∉ operandWords ∧ k.Opened ps (.identifier, name) ∧ k.Proper
  | afterOperand e ps k => Behind e ps k
  | afterThen word condition body bs ps k =>
    condition.Proper ∧ body.Proper ∧ Branch.Proper bs ∧ k.Opened ps (.word .ifWord, word) ∧ k.Proper
  | afterElse last bs ps k =>
    Branch.Proper (last :: bs) ∧ k.Opened ps (.word .ifWord, last.word) ∧ k.Proper

/-! ### Texts of names -/

/-- A name is no word that could be read in its place. -/
theorem Accepts.ne_word {w : Bytes} (h : s.Accepts .identifier w s') {kw : Keyword}
    {s₁ : State Bytes} (hword : s.step (.word kw) w = some s₁) :
    w ≠ Bytes.ofString kw.spelling := by
  intro hw
  have hnone := h.unreserved rfl kw (Terminal.hasText_word.mp hw)
  rw [hword] at hnone
  cases hnone

theorem Accepts.not_mem_operandWords {w : Bytes} (h : s.Accepts .identifier w s')
    (hs : BeforeOperand ps k s) : w ∉ operandWords := by
  have hif : w ≠ Bytes.ofString Keyword.ifWord.spelling := h.ne_word (hs.step nofun rfl)
  have hwhile : w ≠ Bytes.ofString Keyword.whileWord.spelling := h.ne_word (hs.step nofun rfl)
  have htrue : w ≠ Bytes.ofString Keyword.trueWord.spelling := h.ne_word (hs.step nofun rfl)
  have hfalse : w ≠ Bytes.ofString Keyword.falseWord.spelling := h.ne_word (hs.step nofun rfl)
  simp only [operandWords, List.map_cons, List.map_nil, List.mem_cons, List.not_mem_nil, or_false,
    not_or]
  exact ⟨hif, hwhile, htrue, hfalse⟩

/-! ### Operands -/

theorem Behind.of_opened {t t' : Token Bytes} {us : List (Token Bytes)} (he : e.Proper)
    (hlevel : e.level = 4) (htokens : e.tokens = t' :: us) (ht : t' = t ∨ t'.1 ≠ .identifier)
    (h : k.Opened ps t) (hk : k.Proper) : Behind e ps k := by
  refine ⟨he, hlevel, h.1, ?_, hk⟩
  rw [htokens]
  exact h.begun ht

theorem behind_ifExpression {c : Phrase Bytes .conditional} {w : Bytes} (hc : c.Proper)
    (h : k.Opened ps (.word .ifWord, w)) (hk : k.Proper) : Behind (.ifExpression c) ps k := by
  obtain ⟨w', us, htokens⟩ : ∃ w' us, c.tokens = (.word .ifWord, w') :: us := by
    cases c <;> exact ⟨_, _, rfl⟩
  exact .of_opened hc rfl htokens (.inr nofun) h hk

/-- In front of an operand all is ready for its first token. -/
theorem BeforeOperand.opened (h : BeforeOperand ps k s) (hs : s.Proper) {t : Terminal}
    (ht : t = .identifier → ∀ opening ss k', s ≠ .item opening ss k') (a : Bytes) :
    k.Opened ps (t, a) ∧ k.Proper := by
  cases h with
  | item opening ss k =>
    have hne : (t, a) ≠ (.identifier, letText) :=
      fun hn => ht (Prod.mk.inj hn).1 opening ss k rfl
    exact ⟨⟨trivial, ⟨(t, a), rfl, hne⟩⟩, hs⟩
  | operand ps k => exact ⟨⟨hs.1, hs.2.1.append [(t, a)]⟩, hs.2.2⟩
  | operandParen opening ps k => exact ⟨⟨trivial, trivial⟩, hs⟩
  | argumentsStart name opening ps k => exact ⟨⟨trivial, trivial⟩, hs⟩

theorem BehindName.opened {name : Bytes} (h : BehindName name ps k s) (hs : s.Proper) :
    name ∉ operandWords ∧ k.Opened ps (.identifier, name) ∧ k.Proper := by
  cases h with
  | item opening ss k =>
    obtain ⟨hname, hlet, hss, hk⟩ := hs
    have hne : ((.identifier, name) : Token Bytes) ≠ (.identifier, letText) :=
      fun hn => hlet (Prod.mk.inj hn).2
    exact ⟨hname, ⟨trivial, ⟨_, rfl, hne⟩⟩, hss, hk⟩
  | operand ps k => exact hs

theorem BehindOperand.behind (h : BehindOperand e ps k s) (hs : s.Proper) : Behind e ps k := by
  cases h with
  | name h =>
    obtain ⟨hname, hopened, hk⟩ := h.opened hs
    exact .of_opened hname rfl rfl (.inl rfl) hopened hk
  | operand e ps k => exact hs
  | thenBody word condition body bs ps k =>
    obtain ⟨hcondition, hbody, hbs, hopened, hk⟩ := hs
    exact behind_ifExpression (Branch.proper_close ⟨hcondition, hbody⟩ hbs) hopened hk

/-! ### Steps -/

theorem Behind.level_lt (h : Behind e ps k) : ∀ p ∈ ps.head?, p.operator.level < e.level := by
  intro p _
  have hp := level_le p.operator
  have he := h.level
  omega

/-- An operator lets operands be taken, and what then waits is proper. -/
theorem Behind.operator (h : Behind e ps k) (o : Operator) (a : Bytes) :
    (State.operand (⟨(Pending.reduce o.level e ps).1, o, a⟩ ::
      (Pending.reduce o.level e ps).2) k).Proper := by
  have hlevel : o.level ≤ e.level := by
    have ho := level_le o
    have he := h.level
    omega
  obtain ⟨hproper, hle, hlt, hps⟩ := Pending.proper_reduce h.operand hlevel h.level_lt h.pending
  refine ⟨⟨hproper, hle, hlt, hps⟩, ?_, h.context⟩
  rw [Pending.tokens, ← List.append_assoc, Pending.tokens_reduce]
  exact h.begun.append [(.operator o, a)]

/-- The token that begins an operand. -/
theorem proper_beginOperand {t : Terminal} {a : Bytes} (hopened : k.Opened ps (t, a))
    (hk : k.Proper) (hname : t = .identifier → a ∉ operandWords)
    (h : beginOperand ps k t a = some s') : s'.Proper := by
  unfold beginOperand at h
  split at h
  · cases h
    exact ⟨hname rfl, hopened, hk⟩
  · cases h
    exact .of_opened trivial rfl rfl (.inl rfl) hopened hk
  · cases h
    exact .of_opened trivial rfl rfl (.inl rfl) hopened hk
  · cases h
    exact .of_opened trivial rfl rfl (.inl rfl) hopened hk
  · cases h
    exact ⟨trivial, trivial, Branch.proper_nil, hopened, hk⟩
  · cases h
    exact ⟨trivial, trivial, hopened, hk⟩
  · cases h
    exact ⟨hopened, hk⟩
  · cases h

/-- A block that is read completes what it stands in. -/
theorem proper_closeBlock {b : Phrase Bytes .block} {k : Context Bytes .block} (hb : b.Proper)
    (hk : k.Proper) : (closeBlock b k).Proper := by
  cases k with
  | functionBody h => exact ⟨hk, hb⟩
  | thenBody word condition bs ps k => exact ⟨hk.1, hb, hk.2⟩
  | elseBody last bs ps k =>
    obtain ⟨hbs, hopened, hk⟩ := hk
    obtain ⟨hlast, hbs⟩ := List.forall_mem_cons.mp hbs
    exact behind_ifExpression (Branch.proper_close ⟨hlast.1, hlast.2, hb⟩ hbs) hopened hk
  | whileBody word condition ps k =>
    obtain ⟨hcondition, hopened, hk⟩ := hk
    exact .of_opened ⟨hcondition, hb⟩ rfl rfl (.inl rfl) hopened hk

/-- The token that ends a whole expression. -/
theorem proper_closeExpression {t : Terminal} {a : Bytes} (he : e.Proper)
    (hbegun : k.Begun e.tokens) (hk : k.Proper) (h : closeExpression e k t a = some s') :
    s'.Proper := by
  cases k with
  | parenthesized opening ps k =>
    simp only [closeExpression] at h
    split at h
    · cases h
      exact .of_opened he rfl rfl (.inl rfl) hk.1 hk.2
    · cases h
  | firstArgument name opening ps k =>
    obtain ⟨hname, hopened, hk⟩ := hk
    simp only [closeExpression] at h
    split at h
    · cases h
      exact ⟨trivial, trivial, he, hname, hopened, hk⟩
    · cases h
      exact .of_opened ⟨hname, he⟩ rfl rfl (.inl rfl) hopened hk
    · cases h
  | nextArgument name opening es comma ps k =>
    obtain ⟨hes, hname, hopened, hk⟩ := hk
    simp only [closeExpression] at h
    split at h
    · cases h
      exact ⟨trivial, trivial, ⟨hes, he⟩, hname, hopened, hk⟩
    · cases h
      exact .of_opened ⟨hname, hes, he⟩ rfl rfl (.inl rfl) hopened hk
    · cases h
  | ifCondition word bs ps k =>
    simp only [closeExpression] at h
    split at h
    · cases h
      exact ⟨trivial, he, hk⟩
    · cases h
  | whileCondition word ps k =>
    simp only [closeExpression] at h
    split at h
    · cases h
      exact ⟨trivial, he, hk⟩
    · cases h
  | letValue opening ss word name colon ty equals k =>
    simp only [closeExpression] at h
    split at h
    · cases h
      exact ⟨⟨hk.1, he, beginsProperly_word _ _ _⟩, hk.2⟩
    · cases h
  | assignedValue opening ss name equals k =>
    obtain ⟨hname, hlet, hss, hk⟩ := hk
    simp only [closeExpression] at h
    split at h
    · cases h
      have hbegins : BeginsProperly (assignment name equals e a).tokens := by
        intro hn
        cases hn
        exact hlet rfl
      exact ⟨⟨hss, ⟨hname, he⟩, hbegins⟩, hk⟩
    · cases h
  | bare opening ss k =>
    obtain ⟨first, hfirst, hne⟩ := hbegun
    have hbegins : ∀ us, BeginsProperly (e.tokens ++ us) := by
      intro us
      rw [BeginsProperly, List.head?_append, hfirst]
      exact fun hn => hne (Option.some.inj hn)
    simp only [closeExpression] at h
    split at h
    · cases h
      exact ⟨⟨hk.1, he, hbegins _⟩, hk.2⟩
    · cases h
      exact proper_closeBlock ⟨hk.1, he, (hbegins []).of_append⟩ hk.2
    · cases h

theorem Proper.step {t : Terminal} {w : Bytes} (hs : s.Proper) (h : s.Accepts t w s') :
    s'.Proper := by
  cases transition_of_step h.step with
  | functionBody => exact ⟨trivial, hs⟩
  | block => exact proper_closeBlock hs.1 hs.2
  | letEquals => exact ⟨trivial, trivial, hs⟩
  | assignment => exact ⟨trivial, trivial, hs⟩
  | @itemName opening ss k =>
    have hlet : w ≠ letText := h.ne_word rfl
    exact ⟨h.not_mem_operandWords (.item opening ss k), hlet, hs⟩
  | call hname => exact hname.opened hs
  | operand hbefore hitem h' =>
    obtain ⟨hopened, hk⟩ := hbefore.opened hs hitem w
    refine proper_beginOperand hopened hk ?_ h'
    rintro rfl
    exact h.not_mem_operandWords hbefore
  | unit => exact .of_opened trivial rfl rfl (.inl rfl) hs.1 hs.2
  | noArguments => exact .of_opened ⟨hs.1, trivial⟩ rfl rfl (.inl rfl) hs.2.1 hs.2.2
  | elseWord =>
    obtain ⟨hcondition, hbody, hbs, hrest⟩ := hs
    exact ⟨List.forall_mem_cons.mpr ⟨⟨hcondition, hbody⟩, hbs⟩, hrest⟩
  | elseBlock => exact ⟨trivial, hs⟩
  | elseIf =>
    obtain ⟨hbs, hopened, hk⟩ := hs
    exact ⟨trivial, trivial, hbs, ⟨hopened.1, hopened.begun (.inr nofun)⟩, hk⟩
  | operator hbehind => exact (hbehind.behind hs).operator _ w
  | close hbehind h' =>
    have hread := hbehind.behind hs
    have hclose := Pending.proper_close hread.operand hread.level_lt hread.pending
    have hbegun := hread.begun
    rw [← Pending.tokens_close] at hbegun
    exact proper_closeExpression hclose hbegun hread.context h'
  | _ => exact hs

theorem Leads.proper {ts : List (Token Bytes)} (h : s.Leads ts s') (hs : s.Proper) : s'.Proper := by
  induction h with
  | nil => exact hs
  | cons h _ ih => exact ih (hs.step h)

end State

end RueSyntax

import StackLang.Proofs.Cursor.Follows

/-!
# Parsing is total

Each reader with a position follows the reader of the language that it is like, if it has more turns than
there are tokens left: a reader that repeats or nests itself has taken a token since its last turn. So no
source text that is short enough ends in anything but a tree or an error in the source.

Results:
* `followsAt_many`: what is repeated.
* `follows_expression`, `follows_statement`, `follows_declaration`: the readers of the language.
* `Cursor.parse_total`: what each procedure does, and what becomes of a source text.
-/
namespace StackLang
namespace Cursor

open Grammar

variable {α β : Type} {source : String} {m k l b n i : Nat} {x : Cursor α} {p : Parser α}

/-- The reader follows the other one from everywhere with fewer tokens left than so many turns. -/
def Follows (source : String) (k : Nat) (x : Cursor α) (p : Parser α) : Prop :=
  ∀ ⦃i⦄, i ≤ (Token.scan source).length → (Token.scan source).length < i + k → FollowsAt source 1 i x p

theorem Follows.mono (h : Follows source k x p) (hl : l ≤ k) : Follows source l x p :=
  fun _ hi hlt => h hi (Nat.lt_of_lt_of_le hlt (Nat.add_le_add_left hl _))

section

variable (hsize : IsShort source)
include hsize

/-- Each value takes a token, so there are turns enough for all of them. -/
theorem followsAt_many {starts : Token.Kind → Bool} (hend : starts .endOfFile = false)
    (hx : ∀ i ≤ (Token.scan source).length, (Token.scan source).length < i + l →
      starts (tokenAt source i).kind → FollowsAt source 1 i x p)
    (hl : k ≤ l) (hb : k ≤ b) (hn : k ≤ n + 1) (hi : i ≤ (Token.scan source).length)
    (hlt : (Token.scan source).length < i + k) :
    FollowsAt source 0 i (many starts x b) (Parser.many starts p n) := by
  induction k generalizing b n i with
  | zero => omega
  | succ k ih =>
    obtain ⟨b, rfl⟩ : ∃ c, b = c + 1 := ⟨b - 1, by omega⟩
    by_cases hstarts : starts (tokenAt source i).kind
    · have hi' := lt_of_kind_tokenAt (ne_endOfFile_of_starts hend hstarts)
      obtain ⟨n, rfl⟩ : ∃ c, n = c + 1 := ⟨n - 1, by omega⟩
      refine followsAt_peek_bind hsize ?_
      rw [if_pos hstarts, if_pos hstarts]
      refine (hx i hi (by omega) hstarts).andThen fun a j hlo hhi => ?_
      exact (ih (by omega) (by omega) (by omega) hhi (by omega)).bind fun others j' _ hhi' =>
        followsAt_pure hhi' (a :: others)
    · have hpure : FollowsAt source 0 i (pure [] : Cursor (List α)) (pure []) := followsAt_pure hi []
      refine hpure.congr ?_ ?_
      · rw [many, bind_apply, peek_eq hsize]
        simp only [if_neg hstarts]
      · cases n with
        | zero => rfl
        | succ n =>
          have hhead : ((Token.scan source).drop i).headD (.endOfFile (byteLength source.toList)) =
              tokenAt source i := rfl
          rw [Parser.many, Parser.peek_bind, hhead, if_neg hstarts]

/-! ## Expressions -/

variable {nested : Cursor Expr} {nested' : Parser Expr}

theorem followsAt_arguments (hx : Follows source k nested nested') (hb : k ≤ b) (hn : k ≤ n + 1)
    (hi : i ≤ (Token.scan source).length) (hlt : (Token.scan source).length < i + k) :
    FollowsAt source 0 i (arguments b nested) (Parser.arguments n nested') := by
  refine followsAt_peek_bind hsize ?_
  split
  next => exact followsAt_pure hi []
  next =>
    have hitem (i : Nat) (hi : i ≤ (Token.scan source).length)
        (hlt : (Token.scan source).length < i + k)
        (hkind : decide ((tokenAt source i).kind = .comma)) :
        FollowsAt source 1 i (do let _ ← next; nested) (do let _ ← Parser.next; nested') := by
      have hcomma : (tokenAt source i).kind = .comma := of_decide_eq_true hkind
      exact followsAt_next_bind hsize (by rw [hcomma]; decide) fun hi' =>
        (hx hi' (by omega)).mono (Nat.zero_le 1)
    refine (hx hi hlt).andThen fun first j hlo hhi => ?_
    exact (followsAt_many hsize rfl hitem (Nat.le_refl k) hb hn hhi
      (by omega)).bind fun others j' _ hhi' => followsAt_pure hhi' (first :: others)

/-- A call as the readers of the language have it, but for how they tell it from a name. -/
theorem follows_call (hx : Follows source k nested nested') (hb : k ≤ b) (hn : k ≤ n + 1) :
    Follows source (k + 1) (call b nested) (do
      let name ← Parser.expect .identifier
      let _ ← Parser.expect .leftParen
      let args ← Parser.arguments n nested'
      let closing ← Parser.expect .rightParen
      return .call name.lexeme args (name.span.merge closing.span)) := by
  intro i hi hlt
  refine (followsAt_expect hsize (by decide)).bind fun name j hlo hhi => ?_
  refine (followsAt_expect hsize (by decide)).andThen fun opening j' hlo' hhi' => ?_
  refine (followsAt_arguments hsize hx hb hn hhi' (by omega)).bind fun args j'' hlo'' hhi'' => ?_
  exact followsAt_closing hsize .rightParen (by decide) _

/-- A name, which is called if a parenthesis stands after it. -/
theorem followsAt_named (hx : Follows source k nested nested') (hb : k ≤ b) (hn : k ≤ n + 1)
    (hkind : (tokenAt source i).kind = .identifier) (hlt : (Token.scan source).length < i + (k + 1)) :
    FollowsAt source 1 i
      (do
        if (← peekSecond) = .leftParen then call b nested
        else
          let _ ← next
          return .reference (tokenAt source i).lexeme)
      (do
        let _ ← Parser.next
        if ← Parser.accept .leftParen then
          let args ← Parser.arguments n nested'
          let closing ← Parser.expect .rightParen
          return .call (tokenAt source i).lexeme args ((tokenAt source i).span.merge closing.span)
        else return .reference (tokenAt source i).lexeme) := by
  have hne : (tokenAt source i).kind ≠ .endOfFile := by rw [hkind]; decide
  have hi := lt_of_kind_tokenAt hne
  refine followsAt_ahead ?_
  split
  next hopening =>
    have hi' := lt_of_kind_tokenAt (i := i + 1) (by rw [hopening]; decide)
    refine (follows_call hsize hx hb hn (Nat.le_of_lt hi) hlt).congr rfl ?_
    rw [drop_eq_cons hi, drop_eq_cons hi', Parser.next_bind]
    rw [Parser.accept_bind ⟨tokenAt source (i + 1), hopening⟩, if_pos rfl]
    rw [Parser.expect_bind ⟨tokenAt source i, hkind⟩]
    rw [Parser.expect_bind ⟨tokenAt source (i + 1), hopening⟩]
  next hopening =>
    refine followsAt_next_bind hsize hne fun hi' => ?_
    refine (followsAt_pure hi' (.reference (tokenAt source i).lexeme)).congr rfl ?_
    rw [Parser.accept_bind_of_ne]
    · rfl
    · rwa [← Parser.kind_headD (byteLength source.toList)]

theorem follows_primary (hx : Follows source k nested nested') (hb : k ≤ b) (hn : k ≤ n + 1) :
    Follows source (k + 1) (primary b nested) (Parser.primary n nested') := by
  intro i hi hlt
  have hwithin := tokenAt_within source i
  refine followsAt_peek_bind hsize ?_
  cases hkind : (tokenAt source i).kind with
  | number =>
    exact followsAt_next_bind hsize (by rw [hkind]; decide) fun hi' =>
      followsAt_integer hwithin _ _ hi'
  | string =>
    have hne : (tokenAt source i).kind ≠ .endOfFile := by rw [hkind]; decide
    exact followsAt_next_bind hsize hne fun hi' =>
      followsAt_stringLiteral hsize (tokenAt_of_lt (lt_of_kind_tokenAt hne)).1 hkind hi'
  | identifier => exact followsAt_named hsize hx hb hn hkind hlt
  | leftParen =>
    refine followsAt_next_bind hsize (by rw [hkind]; decide) fun hi' => ?_
    refine (hx hi' (by omega)).andThen fun e j hlo hhi => ?_
    exact followsAt_closing hsize .rightParen (by decide) _
  | _ => exact followsAt_refuse (fun _ => rfl) hwithin

variable {operand : Cursor Expr} {operand' : Parser Expr}

theorem follows_unary (ho : Follows source k operand operand') (hb : k ≤ b) (hn : k ≤ n) :
    Follows source k (unary operand b) (Parser.unary operand' n) := by
  -- the turns are used up one by one, while the operand can always be read with `k` tokens left
  suffices h : ∀ l ≤ k, l ≤ b → l ≤ n →
      Follows source l (unary operand b) (Parser.unary operand' n) from h k (Nat.le_refl k) hb hn
  intro l
  clear hb hn
  induction l generalizing b n with
  | zero =>
    intro _ _ _ i hi hlt
    omega
  | succ l ih =>
    intro hl hb hn i hi hlt
    obtain ⟨b, rfl⟩ : ∃ c, b = c + 1 := ⟨b - 1, by omega⟩
    obtain ⟨n, rfl⟩ : ∃ c, n = c + 1 := ⟨n - 1, by omega⟩
    have hnested := ih (b := b) (n := n) (by omega) (by omega) (by omega)
    refine followsAt_peek_bind hsize ?_
    cases hkind : (tokenAt source i).kind with
    | bang =>
      refine followsAt_next_bind hsize (by rw [hkind]; decide) fun hi' => ?_
      exact (hnested hi' (by omega)).andThen fun e j _ hhi => followsAt_pure hhi _
    | minus =>
      refine followsAt_ahead ?_
      split
      next hnumber =>
        have hne : (tokenAt source (i + 1)).kind ≠ .endOfFile := by rw [hnumber]; decide
        refine followsAt_next_bind hsize (by rw [hkind]; decide) fun hi' => ?_
        refine followsAt_looked ?_
        rw [if_pos hnumber]
        refine (followsAt_next_bind hsize hne fun hi' => ?_).mono (Nat.zero_le 1)
        exact followsAt_integer (tokenAt_within source (i + 1)) _ _ hi'
      next hnumber =>
        refine followsAt_next_bind hsize (by rw [hkind]; decide) fun hi' => ?_
        refine followsAt_looked ?_
        rw [if_neg hnumber]
        exact (hnested hi' (by omega)).andThen fun e j _ hhi => followsAt_pure hhi _
    | _ => exact ho hi (by omega)

theorem follows_chain {isOperator : Token.Kind → Bool} (hend : isOperator .endOfFile = false)
    (ho : Follows source k operand operand') (hb : k ≤ b) (hn : k ≤ n + 1) :
    Follows source k (chain b isOperator operand) (Parser.chain n isOperator operand') := by
  intro i hi hlt
  have hitem (i : Nat) (hi : i ≤ (Token.scan source).length)
      (hlt : (Token.scan source).length < i + k) (hkind : isOperator (tokenAt source i).kind) :
      FollowsAt source 1 i
        (do let operator ← next; let right ← operand; return (operator, right))
        (do let operator ← Parser.next; let right ← operand'; return (operator, right)) := by
    refine followsAt_next_bind hsize (ne_endOfFile_of_starts hend hkind) fun hi' => ?_
    exact (ho hi' (by omega)).andThen fun right j _ hhi => followsAt_pure hhi _
  refine (ho hi hlt).bind fun first j hlo hhi => ?_
  exact (followsAt_many hsize hend hitem (Nat.le_refl k) hb hn hhi
    (by omega)).bind fun others j' _ hhi' => followsAt_pure hhi' _

theorem follows_comparison (ho : Follows source k operand operand') :
    Follows source k (comparison operand) (Parser.comparison operand') := by
  intro i hi hlt
  refine (ho hi hlt).bind fun left j hlo hhi => followsAt_peek_bind hsize ?_
  split
  next h =>
    refine (followsAt_next_bind hsize (ne_endOfFile_of_starts rfl h) fun hi' => ?_).mono
      (Nat.zero_le 1)
    exact (ho hi' (by omega)).andThen fun right j' _ hhi' => followsAt_pure hhi' _
  next => exact followsAt_pure hhi left

theorem follows_term (hp : Follows source k (primary b nested) (Parser.primary n nested'))
    (hb : k ≤ b) (hn : k ≤ n) :
    Follows source k (term b nested)
      (Parser.chain n Token.Kind.isMultiplicative (Parser.unary (Parser.primary n nested') n)) :=
  follows_chain hsize rfl (follows_unary hsize hp hb hn) hb (Nat.le_succ_of_le hn)

theorem follows_additive (hp : Follows source k (primary b nested) (Parser.primary n nested'))
    (hb : k ≤ b) (hn : k ≤ n) :
    Follows source k (additive b nested)
      (Parser.chain n Token.Kind.isAdditive (Parser.chain n Token.Kind.isMultiplicative
        (Parser.unary (Parser.primary n nested') n))) :=
  follows_chain hsize rfl (follows_term hsize hp hb hn) hb (Nat.le_succ_of_le hn)

theorem follows_expression (hb : k ≤ b) (hn : k ≤ n) :
    Follows source k (expression b) (Parser.expression n) := by
  induction k generalizing b n with
  | zero =>
    intro i hi hlt
    omega
  | succ k ih =>
    obtain ⟨b, rfl⟩ : ∃ c, b = c + 1 := ⟨b - 1, by omega⟩
    obtain ⟨n, rfl⟩ : ∃ c, n = c + 1 := ⟨n - 1, by omega⟩
    have hnested := ih (Nat.le_of_succ_le_succ hb) (Nat.le_of_succ_le_succ hn)
    have hp := follows_primary hsize hnested (Nat.le_of_lt hb) (Nat.le_succ_of_le (Nat.le_of_lt hn))
    exact follows_comparison hsize (follows_additive hsize hp hb hn)

/-! ## Statements -/

theorem follows_binding (hb : k ≤ b) (hn : k ≤ n) :
    Follows source (k + 1) (binding b) (Parser.binding n) := by
  intro i hi hlt
  refine (followsAt_expect hsize (by decide)).bind fun keyword j hlo hhi => ?_
  refine (followsAt_expect hsize (by decide)).andThen fun name j' hlo' hhi' => ?_
  refine (followsAt_accept hsize (by decide) hhi').bind fun initialised l hlo hhi => ?_
  cases initialised with
  | true =>
    exact ((follows_expression hsize hb hn hhi (by omega)).map some).andThen fun value j _ _ =>
      followsAt_closing hsize .semicolon (by decide) _
  | false => exact followsAt_closing hsize .semicolon (by decide) _

theorem follows_condition (hb : k ≤ b) (hn : k ≤ n) :
    Follows source (k + 1) (condition b) (Parser.condition n) := by
  intro i hi hlt
  refine (followsAt_expect hsize (by decide)).bind fun opening j hlo hhi => ?_
  refine (follows_expression hsize hb hn hhi (by omega)).andThen fun e j' hlo' hhi' => ?_
  exact followsAt_closing hsize .rightParen (by decide) _

theorem follows_giveBack (hb : k ≤ b) (hn : k ≤ n) :
    Follows source (k + 1) (giveBack b) (Parser.giveBack n) := by
  intro i hi hlt
  refine (followsAt_expect hsize (by decide)).bind fun keyword j hlo hhi => ?_
  refine followsAt_peek_bind hsize ?_
  by_cases hkind : (tokenAt source j).kind = .semicolon
  · rw [if_pos hkind, if_pos hkind]
    exact followsAt_closing hsize .semicolon (by decide) _
  · rw [if_neg hkind, if_neg hkind]
    exact ((follows_expression hsize hb hn hhi (by omega)).map some).andThen fun value j _ _ =>
      followsAt_closing hsize .semicolon (by decide) _

theorem follows_assignment (hb : k ≤ b) (hn : k ≤ n) :
    Follows source (k + 1) (assignment b) (Parser.assignment n) := by
  intro i hi hlt
  refine (followsAt_expect hsize (by decide)).bind fun name j hlo hhi => ?_
  refine (followsAt_expect hsize (by decide)).andThen fun equal j' hlo' hhi' => ?_
  refine (follows_expression hsize hb hn hhi' (by omega)).andThen fun value l hlo hhi => ?_
  exact followsAt_closing hsize .semicolon (by decide) _

theorem follows_evaluation (hb : k ≤ b) (hn : k ≤ n) :
    Follows source k (evaluation b) (Parser.evaluation n) := by
  intro i hi hlt
  refine (follows_expression hsize hb hn hi hlt).bind fun e j hlo hhi => ?_
  exact followsAt_closing hsize .semicolon (by decide) _

variable {inner : Cursor Stmt} {inner' : Parser Stmt}

theorem follows_block (hs : Follows source k inner inner') (hb : k ≤ b) (hn : k ≤ n + 1) :
    Follows source (k + 1) (block b inner) (Parser.block n inner') := by
  intro i hi hlt
  refine (followsAt_expect hsize (by decide)).bind fun opening j hlo hhi => ?_
  refine (followsAt_many hsize rfl (fun i hi hlt _ => hs hi hlt) (Nat.le_refl k) hb hn hhi
    (by omega)).bind fun statements j' hlo' hhi' => ?_
  exact followsAt_closing hsize .rightCurly (by decide) _

theorem follows_loop (hs : Follows source k inner inner') (hb : k ≤ b) (hn : k ≤ n) :
    Follows source (k + 1) (loop b inner) (Parser.loop n inner') := by
  intro i hi hlt
  have hbody := follows_block hsize hs hb (Nat.le_succ_of_le hn)
  refine (followsAt_expect hsize (by decide)).bind fun keyword j hlo hhi => ?_
  refine (follows_condition hsize hb hn hhi (by omega)).andThen fun c j' hlo' hhi' => ?_
  exact (hbody hhi' (by omega)).andThen fun body j _ hhi => followsAt_pure hhi _

theorem follows_otherwise (hs : Follows source k inner inner') (hb : k ≤ b) (hn : k ≤ n) :
    Follows source k (otherwise b inner) (Parser.otherwise n inner') := by
  intro i hi hlt
  refine followsAt_peek_bind hsize ?_
  split
  · exact (hs hi hlt).bind fun nested j _ hhi => followsAt_pure hhi _
  · exact follows_block hsize hs hb (Nat.le_succ_of_le hn) hi (Nat.lt_succ_of_lt hlt)

theorem follows_conditional (hs : Follows source k inner inner') (hb : k ≤ b) (hn : k ≤ n) :
    Follows source (k + 1) (conditional b inner) (Parser.conditional n inner') := by
  intro i hi hlt
  have hbody := follows_block hsize hs hb (Nat.le_succ_of_le hn)
  refine (followsAt_expect hsize (by decide)).bind fun keyword j hlo hhi => ?_
  refine (follows_condition hsize hb hn hhi (by omega)).andThen fun c j' hlo' hhi' => ?_
  refine (hbody hhi' (by omega)).andThen fun body j'' hlo'' hhi'' => ?_
  refine (followsAt_accept hsize (by decide) hhi'').bind fun more l hlo hhi => ?_
  split
  · exact (follows_otherwise hsize hs hb hn hhi (by omega)).andThen fun other j _ hhi =>
      followsAt_pure hhi _
  · exact followsAt_pure hhi _

theorem follows_statementOf (hs : Follows source k inner inner') (hb : k + 1 ≤ b) (hn : k + 1 ≤ n) :
    Follows source (k + 1) (statementOf b inner) (Parser.statementOf n inner') := by
  intro i hi hlt
  refine followsAt_peek_bind hsize ?_
  cases (tokenAt source i).kind with
  | letWord => exact (follows_binding hsize hb hn hi (Nat.lt_succ_of_lt hlt)).map _
  | whileWord => exact follows_loop hsize hs (Nat.le_of_lt hb) (Nat.le_of_lt hn) hi hlt
  | ifWord => exact follows_conditional hsize hs (Nat.le_of_lt hb) (Nat.le_of_lt hn) hi hlt
  | returnWord => exact follows_giveBack hsize hb hn hi (Nat.lt_succ_of_lt hlt)
  | identifier =>
    refine followsAt_peekSecond_bind ?_
    split
    · exact follows_assignment hsize hb hn hi (Nat.lt_succ_of_lt hlt)
    · exact follows_evaluation hsize hb hn hi hlt
  | _ => exact follows_evaluation hsize hb hn hi hlt

theorem follows_statement (hb : k ≤ b) (hn : k ≤ n) :
    Follows source k (statement b) (Parser.statement n) := by
  induction k generalizing b n with
  | zero =>
    intro i hi hlt
    omega
  | succ k ih =>
    obtain ⟨b, rfl⟩ : ∃ c, b = c + 1 := ⟨b - 1, by omega⟩
    obtain ⟨n, rfl⟩ : ∃ c, n = c + 1 := ⟨n - 1, by omega⟩
    exact follows_statementOf hsize (ih (by omega) (by omega)) hb hn

/-! ## Programs -/

theorem follows_function (hb : k ≤ b) (hn : k ≤ n) :
    Follows source (k + 1) (function b) (Parser.function n) := by
  intro i hi hlt
  have hbody := follows_block hsize (follows_statement hsize hb hn) hb (Nat.le_succ_of_le hn)
  refine (followsAt_expect hsize (by decide)).bind fun keyword j hlo hhi => ?_
  refine (followsAt_expect hsize (by decide)).andThen fun name j' hlo' hhi' => ?_
  refine (followsAt_expect hsize (by decide)).andThen fun opening l hlo hhi => ?_
  refine followsAt_peek_bind hsize ?_
  split
  · exact followsAt_fail (tokenAt_within source l)
  next hclosing =>
    have hkind : (tokenAt source l).kind = .rightParen := Decidable.not_not.1 hclosing
    refine (followsAt_next_bind hsize (by rw [hkind]; decide) fun hi' => ?_).mono (Nat.zero_le 1)
    exact (hbody hi' (by omega)).andThen fun body j _ hhi => followsAt_pure hhi _

theorem follows_declaration (hb : k ≤ b) (hn : k ≤ n) :
    Follows source (k + 1) (declaration b) (Parser.declaration n) := by
  intro i hi hlt
  refine followsAt_peek_bind hsize ?_
  cases (tokenAt source i).kind with
  | funWord => exact (follows_function hsize hb hn hi hlt).map _
  | letWord => exact (follows_binding hsize hb hn hi hlt).map _
  | _ => exact followsAt_refuse (fun _ => rfl) (tokenAt_within source i)

theorem followsAt_program (hb : (Token.scan source).length < b) :
    FollowsAt source 0 0 (program b) (Parser.program (Token.scan source).length) := by
  have hd := follows_declaration hsize (Nat.le_of_lt hb) (Nat.le_refl _)
  refine (followsAt_many hsize rfl (fun i hi hlt _ => hd hi hlt) (Nat.le_refl _) hb (Nat.le_refl _)
    (Nat.zero_le _) (by omega)).bind fun declarations j _ hhi => followsAt_pure hhi _

/-- The reader that a procedure follows. -/
theorem Procedure.exists_follows (hx : Procedure n α x) : ∃ p, Follows source n x p := by
  have he := follows_expression hsize (Nat.le_refl n) (Nat.le_refl n)
  have hs := follows_statement hsize (Nat.le_refl n) (Nat.le_refl n)
  have hp := (follows_primary hsize he (Nat.le_refl n) (Nat.le_succ n)).mono (Nat.le_succ n)
  have hle := Nat.le_refl n
  cases hx with
  | declaration => exact ⟨_, (follows_declaration hsize hle hle).mono (Nat.le_succ n)⟩
  | function => exact ⟨_, (follows_function hsize hle hle).mono (Nat.le_succ n)⟩
  | block => exact ⟨_, (follows_block hsize hs hle (Nat.le_succ n)).mono (Nat.le_succ n)⟩
  | statement => exact ⟨_, hs⟩
  | binding => exact ⟨_, (follows_binding hsize hle hle).mono (Nat.le_succ n)⟩
  | loop => exact ⟨_, (follows_loop hsize hs hle hle).mono (Nat.le_succ n)⟩
  | conditional => exact ⟨_, (follows_conditional hsize hs hle hle).mono (Nat.le_succ n)⟩
  | condition => exact ⟨_, (follows_condition hsize hle hle).mono (Nat.le_succ n)⟩
  | giveBack => exact ⟨_, (follows_giveBack hsize hle hle).mono (Nat.le_succ n)⟩
  | assignment => exact ⟨_, (follows_assignment hsize hle hle).mono (Nat.le_succ n)⟩
  | expression => exact ⟨_, he⟩
  | additive => exact ⟨_, follows_additive hsize hp hle hle⟩
  | term => exact ⟨_, follows_term hsize hp hle hle⟩
  | unary => exact ⟨_, follows_unary hsize hp hle hle⟩
  | primary => exact ⟨_, hp⟩
  | call => exact ⟨_, (follows_call hsize he hle (Nat.le_succ n)).mono (Nat.le_succ n)⟩

end

/-- Each token of a source text that is short enough can be cut out of it, as can what stands between the
quotes of a string. A procedure that has more turns than there are tokens left takes one of them at least
and none that is not there, or it stops with an error. So the text is read, or refused at a place in it
and between its characters. -/
theorem parse_total (source : String) (hsize : IsShort source) :
    (∀ kind s, (kind, s) ∈ (Sheet.of source).places → ∃ text, s.text? source = some text ∧
      (kind = .string → ∃ body, text = String.ofList ('"' :: (body ++ ['"'])) ∧
        Span.text? text ⟨1, byteLength text.toList - 1⟩ = some (String.ofList body))) ∧
    (∀ n α x, Procedure n α x → ∀ i ≤ (Sheet.of source).places.length,
      (Sheet.of source).places.length < i + n →
      (∃ a j, x (.of source) i = .ok (a, j) ∧ i < j ∧ j ≤ (Sheet.of source).places.length) ∨
      ∃ e, x (.of source) i = .error (.refused e) ∧ e.span.Within source) ∧
    ∀ n, (Sheet.of source).places.length < n →
      (∃ t, parse n source = .ok t ∧ Tree.ofSource source = .ok t) ∨
      ∃ e, parse n source = .error (.refused e) ∧ Tree.ofSource source = .error e ∧
        e.span.Within source := by
  rw [length_places]
  refine ⟨fun kind s hplace => ?_, fun n α x hx i hi hlt => ?_, fun n hn => ?_⟩
  · rw [places_eq, List.mem_map] at hplace
    obtain ⟨t, ht, heq⟩ := hplace
    cases heq
    refine ⟨t.text, (Token.tiles_scanFrom 0 source.toList).text? ht, fun hkind => ?_⟩
    obtain ⟨body, htext, -, hcut⟩ := Token.text?_contents ht hkind
    exact ⟨body, htext, hcut⟩
  · obtain ⟨p, hp⟩ := hx.exists_follows hsize
    cases hp hi hlt with
    | ok hx hlo hhi _ => exact .inl ⟨_, _, hx, hlo, hhi⟩
    | error hx he _ => exact .inr ⟨_, hx, he⟩
  · rw [parse, if_pos hsize, Tree.ofSource, Tree.ofTokens]
    cases followsAt_program hsize hn with
    | ok hx _ _ hp =>
      rw [hx]
      exact .inl ⟨_, rfl, congrArg (Except.map Prod.fst) hp⟩
    | error hx he hp =>
      rw [hx]
      exact .inr ⟨_, rfl, congrArg (Except.map Prod.fst) hp, he⟩

/-- A character of two bytes, which is no lexeme of the language, is refused. -/
theorem parse_total_unknown : IsShort "let é;" ∧
    parse 4 "let é;" = .error (.refused (.unknownCharacter ⟨.unknown, 4, "é"⟩)) ∧
    (Token.mk .unknown 4 "é").span.Within "let é;" := by
  have hsize : IsShort "let é;" := by decide
  have hscan : Token.scan "let é;" = [⟨.letWord, 0, "let"⟩, ⟨.unknown, 4, "é"⟩,
      ⟨.semicolon, 6, ";"⟩] := by decide +kernel
  have hsource : Tree.ofSource "let é;" = .error (.unknownCharacter ⟨.unknown, 4, "é"⟩) := by
    rw [Tree.ofSource, hscan]
    rfl
  have hturns : (Sheet.of "let é;").places.length < 4 := by
    rw [length_places, hscan]
    decide
  obtain ⟨t, -, ht⟩ | ⟨e, hparse, he, hwithin⟩ := (parse_total "let é;" hsize).2.2 4 hturns
  · rw [hsource] at ht
    cases ht
  · rw [hsource] at he
    cases he
    exact ⟨hsize, hparse, hwithin⟩

end Cursor
end StackLang

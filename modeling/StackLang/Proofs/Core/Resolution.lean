import StackLang.Core.Resolve
import StackLang.Proofs.Effect

/-!
# What names are resolved to

A tree that is resolved has a core program of the same shape. The forms below say, for operators and
calls, which core expression stands for which.

Results:
* `resolveOperator_eq_ok`, `resolveCallee_eq_ok`: the form of what is resolved.
* `Operator.eq_symbol_of_ofSymbol?`: an operator has one symbol.
* `Tree.resolve_eq_ok`: the functions of a resolved program, and its main function.
-/
namespace StackLang

open Effect

/-! ## Numbers of names -/

section

variable {names : List String} {name : String} {index : Nat}

theorem getElem?_of_idxOf?_eq_some (h : names.idxOf? name = some index) :
    names[index]? = some name := by
  rw [List.idxOf?, List.findIdx?_eq_some_iff_getElem] at h
  obtain ⟨hlt, heq, -⟩ := h
  rw [List.getElem?_eq_getElem hlt, beq_iff_eq.1 heq]

theorem lt_of_idxOf?_eq_some (h : names.idxOf? name = some index) : index < names.length :=
  (List.getElem?_eq_some_iff.1 (getElem?_of_idxOf?_eq_some h)).1

theorem mem_of_idxOf?_eq_some (h : names.idxOf? name = some index) : name ∈ names :=
  List.mem_of_getElem? (getElem?_of_idxOf?_eq_some h)

end

/-! ## Operators -/

/-- The symbol of an operator. -/
def Operator.symbol : Operator → String
  | not => "!"
  | arithmetic .add => "+"
  | arithmetic .sub => "-"
  | arithmetic .mul => "*"
  | arithmetic .div => "/"
  | arithmetic .mod => "%"
  | comparison .less => "<"
  | comparison .greater => ">"
  | comparison .equal => "=="
  | negated .equal => "!="
  | negated .greater => "<="
  | negated .less => ">="

theorem Operator.eq_symbol_of_ofSymbol? {symbol : String} {op : Operator}
    (h : Operator.ofSymbol? symbol = some op) : symbol = op.symbol := by
  have key : ∀ table : List (String × Operator), (∀ e ∈ table, e.1 = e.2.symbol) →
      table.lookup symbol = some op → symbol = op.symbol := by
    intro table
    induction table with
    | nil => intro _ h; cases h
    | cons e table ih =>
      intro he h
      obtain ⟨s, o⟩ := e
      rw [List.lookup_cons] at h
      split at h
      · rename_i hs
        cases h
        rw [beq_iff_eq] at hs
        rw [hs]; exact he _ List.mem_cons_self
      · exact ih (fun e h => he e (List.mem_cons_of_mem _ h)) h
  exact key _ (by decide) h

/-- What stands in a core program for an operator applied to operands. -/
inductive OperatorForm : Operator → List (Resolved Core.Expr) → Core.Expr → Prop where
  | not (e : Core.Expr) : OperatorForm .not [.ok e] (.not e)
  | arithmetic (op : Arithmetic) (l r : Core.Expr) :
    OperatorForm (.arithmetic op) [.ok l, .ok r] (.arithmetic op l r)
  | comparison (op : Comparison) (l r : Core.Expr) :
    OperatorForm (.comparison op) [.ok l, .ok r] (.comparison op l r)
  | negated (op : Comparison) (l r : Core.Expr) :
    OperatorForm (.negated op) [.ok l, .ok r] (.not (.comparison op l r))

theorem resolveOperator_eq_ok {symbol : Lexeme} {span : Span}
    {operands : List (Resolved Core.Expr)} {c : Core.Expr}
    (h : resolveOperator symbol span operands = .ok c) :
    ∃ op, Operator.ofSymbol? symbol.text = some op ∧ OperatorForm op operands c := by
  unfold resolveOperator at h
  split at h
  · cases h
  · rename_i op hop
    refine ⟨op, hop, ?_⟩
    split at h
    · obtain ⟨e, rfl, hc⟩ := except_bind_eq_ok.1 h
      cases hc; exact .not e
    · obtain ⟨r, rfl, h'⟩ := except_bind_eq_ok.1 h
      obtain ⟨l, rfl, hc⟩ := except_bind_eq_ok.1 h'
      cases hc; exact .arithmetic _ l r
    · obtain ⟨l, rfl, h'⟩ := except_bind_eq_ok.1 h
      obtain ⟨r, rfl, hc⟩ := except_bind_eq_ok.1 h'
      cases hc; exact .comparison _ l r
    · obtain ⟨l, rfl, h'⟩ := except_bind_eq_ok.1 h
      obtain ⟨r, rfl, hc⟩ := except_bind_eq_ok.1 h'
      cases hc; exact .negated _ l r
    · cases h

/-! ## Calls -/

/-- What a call by name stands for, given the names of all functions. -/
inductive CalleeForm (functions : List String) (name : String) :
    List (Resolved Core.Expr) → Callee → Prop where
  | function (index : Nat) (h : functions.idxOf? name = some index) :
    CalleeForm functions name [] (.function index)
  | putInt (e : Resolved Core.Expr) (h : functions.idxOf? name = none) (hname : name = "putint") :
    CalleeForm functions name [e] (.putInt e)
  | putString (e : Resolved Core.Expr) (h : functions.idxOf? name = none)
    (hname : name = "putstr") : CalleeForm functions name [e] (.putString e)
  | getByte (h : functions.idxOf? name = none) (hname : name = "getint") :
    CalleeForm functions name [] .getByte

theorem Intrinsic.ofName?_eq_some {name : String} {i : Intrinsic}
    (h : Intrinsic.ofName? name = some i) :
    name = match i with
      | putInt => "putint"
      | putString => "putstr"
      | getByte => "getint" := by
  simp only [Intrinsic.ofName?, List.lookup_cons, List.lookup_nil] at h
  split at h
  · rename_i hs; cases h; exact beq_iff_eq.1 hs
  · split at h
    · rename_i hs; cases h; exact beq_iff_eq.1 hs
    · split at h
      · rename_i hs; cases h; exact beq_iff_eq.1 hs
      · cases h

theorem resolveCallee_eq_ok {functions : List String} {callee : Lexeme} {span : Span}
    {args : List (Resolved Core.Expr)} {c : Callee}
    (h : resolveCallee functions callee span args = .ok c) :
    CalleeForm functions callee.text args c := by
  unfold resolveCallee at h
  split at h
  · rename_i index hi
    split at h
    · rename_i hempty
      cases h
      rw [List.isEmpty_iff.1 hempty]
      exact .function index hi
    · cases h
  · rename_i hnone
    split at h
    · cases h
    · rename_i i hi
      have hname := Intrinsic.ofName?_eq_some hi
      split at h
      · cases h; exact .putInt _ hnone hname
      · cases h; exact .putString _ hnone hname
      · cases h; exact .getByte hnone hname
      · cases h

theorem resolveCall_eq_ok {functions : List String} {callee : Lexeme} {span : Span}
    {args : List (Resolved Core.Expr)} {c : Core.Expr}
    (h : resolveCall functions callee span args = .ok c) :
    (∃ index, CalleeForm functions callee.text args (.function index) ∧ c = .call index) ∨
      (CalleeForm functions callee.text args .getByte ∧ c = .getByte) := by
  obtain ⟨form, hform, h⟩ := except_bind_eq_ok.1 h
  have hform := resolveCallee_eq_ok hform
  cases form with
  | function index => cases h; exact .inl ⟨index, hform, rfl⟩
  | getByte => cases h; exact .inr ⟨hform, rfl⟩
  | putInt value => cases h
  | putString value => cases h

/-- An expression as a statement is a call without a value, or one whose value is dropped. -/
theorem Expr.resolveStatement_eq_ok {functions : List String} {scope : Scope} {e : Expr}
    {c : Core.Stmt} (h : e.resolveStatement functions scope = .ok c) :
    (∃ callee args span value, e = .call callee args span ∧
      ((CalleeForm functions callee.text (resolveEach functions scope args)
          (.putInt (.ok value)) ∧ c = .putInt value) ∨
        (CalleeForm functions callee.text (resolveEach functions scope args)
          (.putString (.ok value)) ∧ c = .putString value))) ∨
      ∃ value, e.resolve functions scope = .ok value ∧ c = .discard value := by
  unfold resolveStatement at h
  split at h
  · rename_i callee args span
    obtain ⟨form, hform, h⟩ := except_bind_eq_ok.1 h
    have hc := resolveCallee_eq_ok hform
    cases form with
    | function index =>
      cases h
      refine .inr ⟨.call index, ?_, rfl⟩
      rw [Expr.resolve, resolveCall, hform]; rfl
    | getByte =>
      cases h
      refine .inr ⟨.getByte, ?_, rfl⟩
      rw [Expr.resolve, resolveCall, hform]; rfl
    | putInt value =>
      obtain ⟨value, rfl, hs⟩ := except_bind_eq_ok.1 h
      cases hs
      exact .inl ⟨callee, args, span, value, rfl, .inl ⟨hc, rfl⟩⟩
    | putString value =>
      obtain ⟨value, rfl, hs⟩ := except_bind_eq_ok.1 h
      cases hs
      exact .inl ⟨callee, args, span, value, rfl, .inr ⟨hc, rfl⟩⟩
  · obtain ⟨value, hv, h⟩ := except_bind_eq_ok.1 h
    cases h
    exact .inr ⟨value, hv, rfl⟩

/-! ## Programs -/

theorem Function.resolve_eq_ok {functions : List String} {f : Function} {c : Core.Function}
    (h : f.resolve functions = .ok c) :
    ∃ body, Stmt.resolveBlock functions [] 0 f.body = .ok body ∧
      c = ⟨f.name.text, Stmt.localsOfBlock f.body, body⟩ := by
  obtain ⟨body, hb, h⟩ := except_bind_eq_ok.1 h
  cases h
  exact ⟨body, hb, rfl⟩

/-- Each function is resolved by itself. -/
theorem mapM_eq_ok {α β : Type} {g : α → Resolved β} {as : List α} {bs : List β}
    (h : as.mapM g = .ok bs) : as.length = bs.length ∧
      ∀ (i : Nat) a, as[i]? = some a → ∃ b, bs[i]? = some b ∧ g a = .ok b := by
  induction as generalizing bs with
  | nil => cases h; exact ⟨rfl, fun i a h => by simp at h⟩
  | cons a as ih =>
    rw [List.mapM_cons] at h
    obtain ⟨b, hb, h⟩ := except_bind_eq_ok.1 h
    obtain ⟨bs, hbs, h⟩ := except_bind_eq_ok.1 h
    cases h
    obtain ⟨hlen, hget⟩ := ih hbs
    refine ⟨by simp [hlen], fun i a' h => ?_⟩
    cases i with
    | zero => cases h; exact ⟨b, rfl, hb⟩
    | succ i => exact hget i a' h

/-- The names that are declared are those of the functions, in order, and none twice. -/
theorem declaredNames_eq_ok {seen names : List String} {ds : List Declaration}
    (h : declaredNames seen ds = .ok names) (hseen : seen.Nodup) :
    names = seen ++ (ds.filterMap Declaration.function?).map (·.name.text) ∧ names.Nodup := by
  induction ds generalizing seen with
  | nil => cases h; simp [hseen]
  | cons d ds ih =>
    cases d with
    | global binding => cases h
    | function f =>
      rw [declaredNames] at h
      split at h
      · cases h
      · rename_i hf
        obtain ⟨hnames, hnodup⟩ := ih h (by
          rw [List.nodup_append]
          refine ⟨hseen, by simp, fun a ha b hb hab => hf ?_⟩
          rw [← List.mem_singleton.1 hb, ← hab]; exact ha)
        exact ⟨by simpa [Declaration.function?] using hnames, hnodup⟩

/-- The functions of a resolved program, and its main function. -/
theorem Tree.resolve_eq_ok {t : Tree} {m : Core.Module} (h : t.resolve = .ok m) :
    ∃ names, names = t.functions.map (·.name.text) ∧ names.Nodup ∧
      names.idxOf? "main" = some m.main ∧
      t.functions.mapM (Function.resolve names) = .ok m.functions := by
  obtain ⟨names, hnames, h⟩ := except_bind_eq_ok.1 h
  obtain ⟨heq, hnodup⟩ := declaredNames_eq_ok hnames .nil
  refine ⟨names, heq, hnodup, ?_⟩
  split at h
  · cases h
  · rename_i main hmain
    obtain ⟨functions, hf, h⟩ := except_bind_eq_ok.1 h
    cases h
    exact ⟨hmain, hf⟩

end StackLang

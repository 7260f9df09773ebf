/-
Related tokens give related productions.

`Sim R ok ok' p p'` says that every run of `p` that logs nothing but what
`ok` accepts is matched by a run of `p'` from every related state: the
same value, a related state, and a log that `ok'` accepts. The relation
may depend on what has been logged on the left so far. It is closed under
sequencing, so that a relation that the tokens keep (`Related`) is kept by
every production, and none of the productions is looked at again when a
new relation is put to use.

A loop may have more fuel on the right than on the left: the fuel is what
is left of the input, and the right input may be the longer one.
-/
import Svacara.Sql.Interface

namespace Svacara.Sql.TokenOps

open Logged Grammar

variable {σ σ' ω ω' α β : Type} {R : List ω → σ → σ' → Prop} {ok : ω → Prop}
  {ok' : ω' → Prop}

-- ====================================================== simulation

/-- Every accepted run on the left is matched on the right. -/
def Sim (R : List ω → σ → σ' → Prop) (ok : ω → Prop) (ok' : ω' → Prop)
    (p : Logged Fault σ ω α) (p' : Logged Fault σ' ω' α) : Prop :=
  ∀ past s s', R past s s' → ∀ a t log, p s = .ok ((a, t), log) → (∀ e ∈ log, ok e) →
    ∃ t', Clean ok' p' s' a t' ∧ R (past ++ log) t t'

/-- A relation that does not depend on the log. -/
theorem sim_iff {R : σ → σ' → Prop} {p : Logged Fault σ ω α} {p' : Logged Fault σ' ω' α} :
    Sim (fun _ => R) ok ok' p p' ↔
      ∀ s s', R s s' → ∀ a t, Clean ok p s a t → ∃ t', Clean ok' p' s' a t' ∧ R t t' := by
  constructor
  · intro h s s' hs a t hrun
    obtain ⟨log, hrun, hlog⟩ := hrun
    exact h [] s s' hs a t log hrun hlog
  · intro h _ s s' hs a t log hrun hlog
    exact h s s' hs a t ⟨log, hrun, hlog⟩

/-- A value takes no step on either side. -/
theorem sim_pure (a : α) : Sim R ok ok' (pure a) (pure a) := by
  intro past s s' hs b t log hrun _
  obtain ⟨⟨rfl, rfl⟩, rfl⟩ : (a = b ∧ s = t) ∧ [] = log := by
    simpa using Prod.mk.inj (Except.ok.inj hrun)
  exact ⟨s', clean_pure.mpr ⟨rfl, rfl⟩, by rwa [List.append_nil]⟩

/-- The second parts start from related states. -/
theorem Sim.bind {p : Logged Fault σ ω α} {p' : Logged Fault σ' ω' α}
    {f : α → Logged Fault σ ω β} {f' : α → Logged Fault σ' ω' β} (hp : Sim R ok ok' p p')
    (hf : ∀ a, Sim R ok ok' (f a) (f' a)) : Sim R ok ok' (p >>= f) (p' >>= f') := by
  intro past s s' hs b u log hrun hlog
  obtain ⟨a, t, log₁, log₂, hp₁, hf₁, rfl⟩ := bind_run.mp hrun
  obtain ⟨hlog₁, hlog₂⟩ := List.forall_mem_append.mp hlog
  obtain ⟨t', hp₂, ht⟩ := hp past s s' hs a t log₁ hp₁ hlog₁
  obtain ⟨u', hf₂, hu⟩ := hf a _ t t' ht b u log₂ hf₁ hlog₂
  exact ⟨u', clean_bind.mpr ⟨a, t', hp₂, hf₂⟩, by rwa [← List.append_assoc]⟩

/-- A last part that only puts the value together. -/
theorem Sim.map {p : Logged Fault σ ω α} {p' : Logged Fault σ' ω' α} (hp : Sim R ok ok' p p')
    (f : α → β) : Sim R ok ok' (p >>= fun a => pure (f a)) (p' >>= fun a => pure (f a)) :=
  hp.bind fun a => sim_pure (f a)

/-- The values agree, so both sides take the same branch. -/
theorem Sim.ite {c : Prop} [Decidable c] {p q : Logged Fault σ ω α}
    {p' q' : Logged Fault σ' ω' α} (hp : Sim R ok ok' p p') (hq : Sim R ok ok' q q') :
    Sim R ok ok' (if c then p else q) (if c then p' else q') := by
  split
  · exact hp
  · exact hq

/-- A run that fails on the left asks nothing of the right. -/
theorem sim_fail (e : Fault) (p' : Logged Fault σ' ω' α) :
    Sim R ok ok' (Logged.fail e) p' := by
  intro past s s' _ a t log hrun
  cases hrun

/-- The tokens keep the relation on the keywords of the grammar, and the
right has at least the room of the left. -/
structure Related (R : List ω → σ → σ' → Prop) (ok : ω → Prop) (ok' : ω' → Prop) (T : TokenOps σ ω)
    (T' : TokenOps σ' ω') : Prop where
  keyword : ∀ kws ∈ keywords, Sim R ok ok' (T.keyword kws) (T'.keyword kws)
  expect : ∀ kw, [kw] ∈ keywords → Sim R ok ok' (T.expect kw) (T'.expect kw)
  name : Sim R ok ok' T.name T'.name
  num : Sim R ok ok' T.num T'.num
  str : Sim R ok ok' T.str T'.str
  noOperand : Sim R ok ok' T.noOperand T'.noOperand
  room : ∀ past s s', R past s s' → T.room s ≤ T'.room s'

variable {T : TokenOps σ ω} {T' : TokenOps σ' ω'}

/-- A loop that has what is left as its fuel. -/
theorem sim_get {f : Nat → Logged Fault σ ω α} {f' : Nat → Logged Fault σ' ω' α}
    (hT : Related R ok ok' T T') (h : ∀ n n', n ≤ n' → Sim R ok ok' (f n) (f' n')) :
    Sim R ok ok' (Logged.get >>= fun s => f (T.room s + 1))
      (Logged.get >>= fun s => f' (T'.room s + 1)) := by
  intro past s s' hs a t log hrun hlog
  obtain ⟨_, _, _, log', hget, hloop, rfl⟩ := bind_run.mp hrun
  obtain ⟨⟨rfl, rfl⟩, rfl⟩ := by simpa [Logged.get] using hget
  obtain ⟨t', hrun', ht⟩ := h _ _ (Nat.succ_le_succ (hT.room _ _ _ hs)) past _ s' hs a t _ hloop
    hlog
  exact ⟨t', clean_bind.mpr ⟨s', s', clean_get.mpr ⟨rfl, rfl⟩, hrun'⟩, ht⟩

-- ===================================================== combinators

section

variable (hT : Related R ok ok' T T')

include hT

/-- A keyword whose error is dropped. -/
theorem sim_expected (kw : String) (hkw : [kw] ∈ keywords) :
    Sim R ok ok' (expected T kw) (expected T' kw) :=
  (hT.expect kw hkw).map _

/-- The keywords of a table, one after another. -/
theorem sim_firstKeyword (cases : List (List String × α)) (hcases : ∀ c ∈ cases, c.1 ∈ keywords) :
    Sim R ok ok' (firstKeyword T cases) (firstKeyword T' cases) := by
  induction cases with
  | nil => exact sim_pure none
  | cons c cases ih =>
      obtain ⟨hc, hcases⟩ := List.forall_mem_cons.mp hcases
      exact (hT.keyword c.1 hc).bind fun _ => (sim_pure (some c.2)).ite (ih hcases)

section

variable {p : Logged Fault σ ω α} {p' : Logged Fault σ' ω' α} (h : Sim R ok ok' p p')

include h

/-- A clause that may be left out. -/
theorem sim_ifKeyword (kws : List String) (hkws : kws ∈ keywords) (a : α) :
    Sim R ok ok' (ifKeyword T kws p a) (ifKeyword T' kws p' a) :=
  (hT.keyword kws hkws).bind fun _ => h.ite (sim_pure a)

/-- A clause whose keyword must be there. -/
theorem sim_ifExpected (kw : String) (hkw : [kw] ∈ keywords) (a : α) :
    Sim R ok ok' (ifExpected T kw p a) (ifExpected T' kw p' a) :=
  (hT.expect kw hkw).bind fun _ => h.ite (sim_pure a)

/-- By induction on the fuel of the left side. -/
theorem sim_sepBy (n n' : Nat) (hn : n ≤ n') :
    Sim R ok ok' (sepBy T p n) (sepBy T' p' n') := by
  induction n generalizing n' with
  | zero => exact sim_fail .fuel _
  | succ n ih =>
      obtain ⟨m, rfl⟩ : ∃ m, n' = m + 1 := ⟨n' - 1, by omega⟩
      refine h.bind fun a => ?_
      refine (hT.keyword [","] (by simp [keywords])).bind fun _ => ?_
      exact ((ih m (by omega)).map _).ite (sim_pure [a])

theorem sim_commaList : Sim R ok ok' (commaList T p) (commaList T' p') :=
  sim_get hT fun n n' hn => sim_sepBy hT h n n' hn

end

section

variable {p : Logged Fault σ ω QLNode} {p' : Logged Fault σ' ω' QLNode}
  (h : Sim R ok ok' p p')

include h

/-- The same for the operators of a level. -/
theorem sim_chainLoop (ops : List (List String × QLType)) (hops : ∀ c ∈ ops, c.1 ∈ keywords)
    (n n' : Nat) (hn : n ≤ n') (left : QLNode) :
    Sim R ok ok' (chainLoop T ops p n left) (chainLoop T' ops p' n' left) := by
  induction n generalizing n' left with
  | zero => exact sim_fail .fuel _
  | succ n ih =>
      obtain ⟨m, rfl⟩ : ∃ m, n' = m + 1 := ⟨n' - 1, by omega⟩
      refine (sim_firstKeyword hT ops hops).bind fun op => ?_
      cases op with
      | none => exact sim_pure left
      | some op => exact h.bind fun right => ih m (by omega) _

/-- An operand, then the loop. -/
theorem sim_chain (ops : List (List String × QLType)) (hops : ∀ c ∈ ops, c.1 ∈ keywords) :
    Sim R ok ok' (chain T ops p) (chain T' ops p') :=
  h.bind fun left => sim_get hT fun n n' hn => sim_chainLoop hT h ops hops n n' hn left

-- ===================================================== expressions

/-- Sums of products. -/
theorem sim_exprAdd : Sim R ok ok' (exprAdd T p) (exprAdd T' p') :=
  sim_chain hT (sim_chain hT h mulOps (by simp [keywords, mulOps])) addOps
    (by simp [keywords, addOps])

/-- At most one comparison. -/
theorem sim_exprCmp : Sim R ok ok' (exprCmp T p) (exprCmp T' p') := by
  refine (sim_exprAdd hT h).bind fun left => ?_
  refine (sim_firstKeyword hT cmpOps (by simp [keywords, cmpOps])).bind fun op => ?_
  cases op with
  | none => exact sim_pure left
  | some op => exact (sim_exprAdd hT h).map _

theorem sim_exprAnd : Sim R ok ok' (exprAnd T p) (exprAnd T' p') :=
  sim_chain hT (sim_exprCmp hT h) _ (by simp [keywords])

theorem sim_exprOr : Sim R ok ok' (exprOr T p) (exprOr T' p') :=
  sim_chain hT (sim_exprAnd hT h) _ (by simp [keywords])

/-- The arguments behind the bracket. -/
theorem sim_pArgs : Sim R ok ok' (pArgs T p) (pArgs T' p') := by
  refine (hT.keyword [")"] (by simp [keywords])).bind fun _ => (sim_pure []).ite ?_
  exact (sim_commaList hT h).bind fun kids =>
    (sim_expected hT ")" (by simp [keywords])).map _

/-- A name with or without arguments. -/
theorem sim_pNamed (name : Bytes) : Sim R ok ok' (pNamed T p name) (pNamed T' p' name) := by
  refine (hT.keyword ["("] (by simp [keywords])).bind fun _ =>
    Sim.ite ?_ (sim_pure _)
  exact (sim_pArgs hT h).map _

/-- A number, a string or a name. -/
theorem sim_pOperand : Sim R ok ok' (pOperand T p) (pOperand T' p') := by
  refine hT.num.bind fun n => ?_
  cases n with
  | some n => exact sim_pure _
  | none =>
      refine hT.str.bind fun str => ?_
      cases str with
      | some str => exact sim_pure _
      | none => exact hT.name.bind fun name => hT.noOperand.ite (sim_pNamed hT h name)

end

/-- By induction on the depth of the left side. -/
theorem sim_pExprAtom (n n' : Nat) (hn : n ≤ n') :
    Sim R ok ok' (pExprAtom T n) (pExprAtom T' n') := by
  induction n generalizing n' with
  | zero => exact sim_fail .fuel _
  | succ n ih =>
      obtain ⟨m, rfl⟩ : ∃ m, n' = m + 1 := ⟨n' - 1, by omega⟩
      have hm := ih m (by omega)
      refine (hT.keyword ["not"] (by simp [keywords])).bind fun _ => Sim.ite ?_ ?_
      · exact hm.map _
      · refine (hT.keyword ["("] (by simp [keywords])).bind fun _ => Sim.ite ?_ ?_
        · exact (sim_exprOr hT hm).bind fun expr =>
            (sim_expected hT ")" (by simp [keywords])).map _
        · exact sim_pOperand hT (sim_exprOr hT hm)

/-- The depth is what is left. -/
theorem sim_pExprOr : Sim R ok ok' (pExprOr T) (pExprOr T') :=
  sim_get hT fun n n' hn => sim_exprOr hT (sim_pExprAtom hT n n' hn)

theorem sim_pExprCmp : Sim R ok ok' (pExprCmp T) (pExprCmp T') :=
  sim_get hT fun n n' hn => sim_exprCmp hT (sim_pExprAtom hT n n' hn)

-- ====================================================== statements

theorem sim_pType : Sim R ok ok' (pType T) (pType T') :=
  (sim_firstKeyword hT colTypes (by simp [keywords, colTypes])).map _

theorem sim_pNames : Sim R ok ok' (pNames T) (pNames T') :=
  (sim_commaList hT hT.name).bind fun names =>
    (sim_expected hT ")" (by simp [keywords])).map _

/-- A column, or the primary key. -/
theorem sim_pColumn (stmt : QLCreateTable) :
    Sim R ok ok' (pColumn T stmt) (pColumn T' stmt) := by
  refine (hT.keyword ["primary", "key"] (by simp [keywords])).bind fun _ =>
    Sim.ite ?_ ?_
  · exact (sim_expected hT "(" (by simp [keywords])).bind fun _ =>
      (sim_pNames hT).map _
  · exact hT.name.bind fun name => (sim_pType hT).map _

/-- The columns, by induction on the fuel. -/
theorem sim_columnLoop (n n' : Nat) (hn : n ≤ n') (stmt : QLCreateTable) :
    Sim R ok ok' (columnLoop T n stmt) (columnLoop T' n' stmt) := by
  induction n generalizing n' stmt with
  | zero => exact sim_fail .fuel _
  | succ n ih =>
      obtain ⟨m, rfl⟩ : ∃ m, n' = m + 1 := ⟨n' - 1, by omega⟩
      exact (sim_pColumn hT stmt).bind fun stmt =>
        (hT.keyword [","] (by simp [keywords])).bind fun _ =>
          (ih m (by omega) stmt).ite (sim_pure stmt)

theorem sim_pColumns (stmt : QLCreateTable) :
    Sim R ok ok' (pColumns T stmt) (pColumns T' stmt) :=
  sim_get hT fun n n' hn => (sim_columnLoop hT n n' hn stmt).bind fun stmt =>
    (sim_expected hT ")" (by simp [keywords])).map _

theorem sim_pCreateTable : Sim R ok ok' (pCreateTable T) (pCreateTable T') :=
  hT.name.bind fun _ =>
    sim_ifExpected hT (sim_pColumns hT _) _ (by simp [keywords]) _

theorem sim_pIndexOn (stmt : QLCreateIndex) :
    Sim R ok ok' (pIndexOn T stmt) (pIndexOn T' stmt) :=
  hT.name.bind fun _ =>
    (sim_ifExpected hT (sim_pNames hT) _ (by simp [keywords]) _).map _

theorem sim_pCreateIndex : Sim R ok ok' (pCreateIndex T) (pCreateIndex T') :=
  (hT.keyword ["unique"] (by simp [keywords])).bind fun _ =>
    hT.name.bind fun _ =>
      sim_ifExpected hT (sim_pIndexOn hT _) _ (by simp [keywords]) _

/-- A star, or a name with an alias. -/
theorem sim_pSelectExpr : Sim R ok ok' (pSelectExpr T) (pSelectExpr T') := by
  refine (hT.keyword ["*"] (by simp [keywords])).bind fun _ => (sim_pure _).ite ?_
  exact hT.name.bind fun _ => sim_ifKeyword hT hT.name _ (by simp [keywords]) _

/-- One key, or two for a range. -/
theorem sim_pIndexBy (node : QLScan) :
    Sim R ok ok' (pIndexBy T node) (pIndexBy T' node) := by
  refine (sim_pExprCmp hT).bind fun key1 => ?_
  refine (sim_firstKeyword hT _ (by simp [keywords])).bind fun next => ?_
  cases next with
  | none => exact sim_pure _
  | some _ => exact (sim_pExprCmp hT).map _

theorem sim_pNumOr (i : Int64) : Sim R ok ok' (pNumOr T i) (pNumOr T' i) :=
  hT.num.map _

theorem sim_pLimit (node : QLScan) : Sim R ok ok' (pLimit T node) (pLimit T' node) :=
  (sim_pNumOr hT _).bind fun _ =>
    (sim_ifKeyword hT (sim_pNumOr hT _) _ (by simp [keywords]) _).map _

/-- The keys, the filter and the limit. -/
theorem sim_pScan (node : QLScan) : Sim R ok ok' (pScan T node) (pScan T' node) :=
  (sim_ifKeyword hT (sim_pIndexBy hT node) _ (by simp [keywords]) _).bind fun _ =>
    (sim_ifKeyword hT (sim_pExprOr hT) _ (by simp [keywords]) _).bind fun _ =>
      sim_ifKeyword hT (sim_pLimit hT _) _ (by simp [keywords]) _

theorem sim_pFrom : Sim R ok ok' (pFrom T) (pFrom T') :=
  hT.name.bind fun _ => sim_pScan hT _

theorem sim_pSelect : Sim R ok ok' (pSelect T) (pSelect T') :=
  (sim_commaList hT (sim_pSelectExpr hT)).bind fun _ =>
    (sim_ifExpected hT (sim_pFrom hT) _ (by simp [keywords]) _).map _

theorem sim_pInsert : Sim R ok ok' (pInsert T) (pInsert T') :=
  hT.name.bind fun _ =>
    (sim_ifKeyword hT (sim_pNames hT) _ (by simp [keywords]) _).bind fun _ =>
      (sim_expected hT "values" (by simp [keywords])).bind fun _ =>
        (sim_expected hT "(" (by simp [keywords])).bind fun _ =>
          (sim_commaList hT (sim_pExprOr hT)).bind fun _ =>
            (sim_expected hT ")" (by simp [keywords])).map _

theorem sim_pAssign : Sim R ok ok' (pAssign T) (pAssign T') :=
  hT.name.bind fun _ =>
    (sim_expected hT "=" (by simp [keywords])).bind fun _ =>
      (sim_pExprOr hT).map _

theorem sim_pUpdate : Sim R ok ok' (pUpdate T) (pUpdate T') :=
  hT.name.bind fun _ =>
    (sim_expected hT "set" (by simp [keywords])).bind fun _ =>
      (sim_commaList hT (sim_pAssign hT)).bind fun _ =>
        (sim_expected hT "where" (by simp [keywords])).bind fun _ =>
          (sim_pScan hT _).map _

theorem sim_pDelete : Sim R ok ok' (pDelete T) (pDelete T') :=
  hT.name.bind fun _ =>
    (sim_ifKeyword hT (sim_pScan hT _) _ (by simp [keywords]) _).map _

omit hT in
theorem sim_asStmt {p : Logged Fault σ ω α} {p' : Logged Fault σ' ω' α}
    (h : Sim R ok ok' p p') (wrap : α → Stmt) :
    Sim R ok ok' (asStmt wrap p) (asStmt wrap p') :=
  h.map _

/-- The statement behind its opening keywords. -/
theorem sim_pBody (kind : StmtKind) : Sim R ok ok' (pBody T kind) (pBody T' kind) := by
  cases kind with
  | createTable => exact sim_asStmt (sim_pCreateTable hT) _
  | createIndex => exact sim_asStmt (sim_pCreateIndex hT) _
  | select => exact sim_asStmt (sim_pSelect hT) _
  | insert => exact sim_asStmt (sim_pInsert hT) _
  | update => exact sim_asStmt (sim_pUpdate hT) _
  | delete => exact sim_asStmt (sim_pDelete hT) _
  | explain => exact sim_asStmt (sim_pSelect hT) _
  | begin => exact sim_pure _
  | commit => exact sim_pure _
  | abort => exact sim_pure _

/-- The text of an unknown statement is not a token: it depends on all
that is left. -/
theorem sim_pStmt (hrest : Sim R ok ok' T.rest T'.rest) :
    Sim R ok ok' (pStmt T) (pStmt T') := by
  refine (sim_firstKeyword hT stmtKinds (by simp [keywords, stmtKinds])).bind fun kind => ?_
  cases kind with
  | none => exact hrest.map _
  | some kind => exact sim_pBody hT kind

end

end Svacara.Sql.TokenOps

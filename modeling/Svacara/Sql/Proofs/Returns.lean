/-
The parser returns, on every input.

`Leaves s x` says of a production's outcome that it returned and that
what it leaves is a suffix of `s`: the position has moved forward inside
the input, or not at all. The fuel of the loops is the length of what is
left, so they need more, that an operator or a comma shortens it: no
keyword begins with the byte 0, which is what `peek` shows at the end.

An atom that contains an expression has consumed a byte before it. So
the atom parser with `n` levels returns below length `n`
(`pExprAtom_leaves`), each level above it does as well, and the
statements follow one by one.
-/
import Svacara.Sql.Parser

namespace Svacara.Sql

open Outcome

variable {α β : Type}

-- ====================================================== the tokens

theorem skipWS_suffix (s : Bytes) : skipWS s <:+ s := List.dropWhile_suffix _

/-- A comment ends with its line. -/
theorem skipLoop_suffix (n : Nat) (s : Bytes) : skipLoop n s <:+ s := by
  induction n generalizing s with
  | zero => simp [skipLoop]
  | succ n ih =>
      unfold skipLoop
      split
      · next m a b s hm =>
          cases hm
          split
          · have hline : skipWS (s.dropWhile fun c => c ≠ 10) <:+ s :=
              (skipWS_suffix _).trans (List.dropWhile_suffix _)
            have hs : s <:+ a :: b :: s := ⟨[a, b], rfl⟩
            exact (ih _).trans (hline.trans hs)
          · exact List.suffix_refl _
      · exact List.suffix_refl _

theorem skipComments_suffix (s : Bytes) : skipComments s <:+ s :=
  (skipLoop_suffix _ _).trans (skipWS_suffix s)

/-- A word takes a byte for each of its letters. -/
theorem matchWord_suffix {kw s r : Bytes} (h : matchWord kw s = some r) : r <:+ s := by
  induction kw generalizing s with
  | nil =>
      cases h
      exact List.suffix_refl _
  | cons c kw ih =>
      unfold matchWord at h
      split at h
      · exact (ih h).trans (List.tail_suffix s)
      · cases h

theorem matchWords_suffix {kws : List String} {s r : Bytes}
    (h : matchWords kws s = some r) : r <:+ s := by
  induction kws generalizing s with
  | nil =>
      cases h
      exact List.suffix_refl _
  | cons kw kws ih =>
      obtain ⟨t, ht, hr⟩ := Option.bind_eq_some_iff.mp h
      exact (ih hr).trans ((matchWord_suffix ht).trans (skipWS_suffix s))

/-- A keyword is taken with the layout before it. -/
theorem pKeyword_suffix {kws : List String} {s r : Bytes} (h : pKeyword kws s = some r) :
    r <:+ s :=
  (matchWords_suffix h).trans (skipComments_suffix s)

/-- With the keyword or without. -/
theorem expect_suffix (kw : String) (s : Bytes) : expect kw s <:+ s := by
  unfold expect
  cases h : pKeyword [kw] s with
  | none => exact List.suffix_refl s
  | some r => exact pKeyword_suffix h

theorem pMustSym_suffix (s : Bytes) : (pMustSym s).2 <:+ s :=
  (List.dropWhile_suffix _).trans (skipComments_suffix s)

/-- Without digits the sign is given back. -/
theorem pNum_suffix (s : Bytes) : (pNum s).2 <:+ s := by
  have hsign : (if peek (skipComments s) = 45 then (skipComments s).tail
      else skipComments s) <:+ skipComments s := by
    split
    · exact List.tail_suffix _
    · exact List.suffix_refl _
  refine List.IsSuffix.trans ?_ (skipComments_suffix s)
  unfold pNum
  dsimp only
  generalize (if peek (skipComments s) = 45 then (skipComments s).tail
    else skipComments s) = t at hsign ⊢
  split
  · exact List.suffix_refl _
  · exact (List.dropWhile_suffix _).trans hsign

/-- At the closing quote, or the end of the input. -/
theorem strLoop_suffix (quote : UInt8) (s out : Bytes) : (strLoop quote s out).2 <:+ s := by
  fun_induction strLoop quote s out with
  | case1 => exact List.suffix_refl _
  | case2 => exact List.nil_suffix
  | case3 => exact List.nil_suffix
  | case4 => exact List.suffix_cons _ _
  | case5 c s out _ ih => exact ih.trans ⟨[92, c], rfl⟩
  | case6 b c s out _ _ ih => exact ih.trans (List.suffix_cons _ _)

theorem pStr_suffix (s : Bytes) : (pStr s).2 <:+ s := by
  unfold pStr
  refine List.IsSuffix.trans ?_ (skipComments_suffix s)
  dsimp only
  split
  · exact (strLoop_suffix _ _ _).trans (List.tail_suffix _)
  · exact List.suffix_refl _

-- ======================================================== progress

/-- The first keyword does not begin with the byte 0. -/
def Opens : List String → Prop
  | [] => False
  | kw :: _ => peek (lit kw) ≠ 0

instance : (kws : List String) → Decidable (Opens kws)
  | [] => inferInstanceAs (Decidable False)
  | kw :: _ => inferInstanceAs (Decidable (peek (lit kw) ≠ 0))

/-- A word that is not empty takes a byte. -/
theorem matchWord_lt {kw s r : Bytes} (hkw : peek kw ≠ 0) (h : matchWord kw s = some r) :
    r.length < s.length := by
  cases kw with
  | nil => exact absurd rfl hkw
  | cons c kw =>
      unfold matchWord at h
      split at h
      · next hc =>
          cases s with
          | nil => exact absurd hc.symm hkw
          | cons b s =>
              have hle := (matchWord_suffix h).length_le
              simpa using Nat.lt_succ_of_le hle
      · cases h

/-- The first of the words takes a byte. -/
theorem matchWords_lt {kws : List String} {s r : Bytes} (hkws : Opens kws)
    (h : matchWords kws s = some r) : r.length < s.length := by
  cases kws with
  | nil => exact absurd hkws id
  | cons kw kws =>
      obtain ⟨t, ht, hr⟩ := Option.bind_eq_some_iff.mp h
      have hfront := (skipWS_suffix s).length_le
      have hword := matchWord_lt hkws ht
      have hrest := (matchWords_suffix hr).length_le
      omega

/-- So a keyword does. -/
theorem pKeyword_lt {kws : List String} {s r : Bytes} (hkws : Opens kws)
    (h : pKeyword kws s = some r) : r.length < s.length :=
  Nat.lt_of_lt_of_le (matchWords_lt hkws h) (skipComments_suffix s).length_le

/-- The keyword of a table that is taken. -/
theorem firstKeyword_suffix {cases : List (List String × α)} {s r : Bytes} {a : α}
    (h : firstKeyword cases s = some (a, r)) : r <:+ s := by
  induction cases with
  | nil => cases h
  | cons c cases ih =>
      obtain ⟨kws, b⟩ := c
      unfold firstKeyword at h
      split at h
      · next t ht =>
          cases h
          exact pKeyword_suffix ht
      · exact ih h

/-- It takes a byte if none of the table is empty. -/
theorem firstKeyword_lt {cases : List (List String × α)} {s r : Bytes} {a : α}
    (hcases : ∀ c ∈ cases, Opens c.1) (h : firstKeyword cases s = some (a, r)) :
    r.length < s.length := by
  induction cases with
  | nil => cases h
  | cons c cases ih =>
      obtain ⟨kws, b⟩ := c
      obtain ⟨hc, hcases⟩ := List.forall_mem_cons.mp hcases
      unfold firstKeyword at h
      split at h
      · next t ht =>
          cases h
          exact pKeyword_lt hc ht
      · exact ih hcases h

theorem comma_opens : Opens [","] := by decide +kernel

theorem bracket_opens : Opens ["("] := by decide +kernel

theorem not_opens : Opens ["not"] := by decide +kernel

-- ===================================================== combinators

/-- The production returned and left a suffix of `s`. -/
abbrev Leaves (s : Bytes) (x : Except Fault (α × Bytes)) : Prop :=
  Meets (fun _ => False) x fun p => p.2 <:+ s

/-- A suffix of a suffix. -/
theorem Leaves.mono {s t : Bytes} {x : Except Fault (α × Bytes)} (h : Leaves t x)
    (hts : t <:+ s) : Leaves s x :=
  Meets.mono h fun _ hp => hp.trans hts

/-- No failure is accepted. -/
theorem Leaves.returns {s : Bytes} {x : Except Fault (α × Bytes)} (h : Leaves s x) :
    ∃ a t, x = .ok (a, t) ∧ t <:+ s := by
  rcases h with ⟨⟨a, t⟩, hx, ht⟩ | ⟨e, -, he⟩
  · exact ⟨a, t, hx, ht⟩
  · exact absurd he id

/-- Sequencing: the rest of a production starts from what its first part
left. -/
theorem Leaves.bind {s : Bytes} {x : Except Fault (α × Bytes)}
    {f : α × Bytes → Except Fault (β × Bytes)} (h : Leaves s x)
    (hf : ∀ a t, t <:+ s → Leaves s (f (a, t))) : Leaves s (x >>= f) :=
  Meets.bind h fun p hp => hf p.1 p.2 hp

/-- The production returns on every input shorter than `n`. -/
def LeavesBelow (n : Nat) (p : Production α) : Prop :=
  ∀ s, s.length < n → Leaves s (p s)

section

variable {n : Nat} {item : Production α} (hitem : LeavesBelow n item)

include hitem

/-- The comma pays for the next round. -/
theorem sepBy_leaves (fuel : Nat) (s : Bytes) (hs : s.length < n)
    (hfuel : s.length < fuel) : Leaves s (sepBy item fuel s) := by
  induction fuel generalizing s with
  | zero => omega
  | succ fuel ih =>
      unfold sepBy
      refine Leaves.bind (hitem s hs) fun a t ht => ?_
      have hle := ht.length_le
      dsimp only
      split
      · exact Meets.ok ht
      · next r hr =>
          have hlt := pKeyword_lt comma_opens hr
          refine Leaves.bind ((ih r (by omega) (by omega)).mono
            ((pKeyword_suffix hr).trans ht)) fun as u hu => ?_
          exact Meets.ok hu

/-- A round for every byte is enough. -/
theorem commaList_leaves : LeavesBelow n (commaList item) :=
  fun s hs => sepBy_leaves hitem _ s hs (Nat.lt_succ_self _)

end

section

variable {n : Nat} {ops : List (List String × QLType)} (hops : ∀ c ∈ ops, Opens c.1)
  {operand : Production QLNode} (hoperand : LeavesBelow n operand)

include hops hoperand

/-- The operator pays for the next round. -/
theorem chainLoop_leaves (fuel : Nat) (left : QLNode) (s : Bytes) (hs : s.length < n)
    (hfuel : s.length < fuel) : Leaves s (chainLoop ops operand fuel left s) := by
  induction fuel generalizing left s with
  | zero => omega
  | succ fuel ih =>
      unfold chainLoop
      split
      · exact Meets.ok (List.suffix_refl s)
      · next op r hr =>
          have hlt := firstKeyword_lt hops hr
          refine Leaves.mono ?_ (firstKeyword_suffix hr)
          refine Leaves.bind (hoperand r (by omega)) fun right t ht => ?_
          have hle := ht.length_le
          exact (ih _ t (by omega) (by omega)).mono ht

/-- An operand, then the loop. -/
theorem chain_leaves : LeavesBelow n (chain ops operand) := by
  intro s hs
  refine Leaves.bind (hoperand s hs) fun left t ht => ?_
  have hle := ht.length_le
  exact (chainLoop_leaves hops hoperand _ left t (by omega) (Nat.lt_succ_self _)).mono ht

end

-- ===================================================== expressions

section

variable {n : Nat} {atom : Production QLNode} (hatom : LeavesBelow n atom)

include hatom

/-- No operator of the two tables is empty. -/
theorem exprAdd_leaves : LeavesBelow n (exprAdd atom) :=
  chain_leaves (by decide +kernel) (chain_leaves (by decide +kernel) hatom)

/-- At most one comparison. -/
theorem exprCmp_leaves : LeavesBelow n (exprCmp atom) := by
  intro s hs
  refine Leaves.bind (exprAdd_leaves hatom s hs) fun left t ht => ?_
  have hle := ht.length_le
  dsimp only
  split
  · exact Meets.ok ht
  · next op r hr =>
      have hrt := firstKeyword_suffix hr
      have hlt := hrt.length_le
      refine Leaves.mono ?_ (hrt.trans ht)
      exact Leaves.bind (exprAdd_leaves hatom r (by omega)) fun _ _ hu => Meets.ok hu

/-- The top level. -/
theorem exprOr_leaves : LeavesBelow n (exprOr atom) :=
  chain_leaves (by decide +kernel) (chain_leaves (by decide +kernel) (exprCmp_leaves hatom))

end

/-- The closing bracket may be missing. -/
theorem pArgs_leaves {n : Nat} {expr : Production QLNode} (hexpr : LeavesBelow n expr) :
    LeavesBelow n (pArgs expr) := by
  intro s hs
  unfold pArgs
  split
  · next r hr => exact Meets.ok (pKeyword_suffix hr)
  · refine Leaves.bind (commaList_leaves hexpr s hs) fun kids t ht => ?_
    exact Meets.ok ((expect_suffix _ t).trans ht)

/-- The arguments of a call stand behind its bracket. -/
theorem pOperand_leaves {expr : Production QLNode} {s : Bytes}
    (hexpr : LeavesBelow s.length expr) : Leaves s (pOperand expr s) := by
  have h₁ := pNum_suffix s
  unfold pOperand
  split
  · next i t ht => exact Meets.ok (by simpa [ht] using h₁)
  next t ht =>
  rw [ht] at h₁
  have h₂ := (pStr_suffix t).trans h₁
  split
  · next str u hu => exact Meets.ok (by simpa [hu] using h₂)
  next u hu =>
  rw [hu] at h₂
  have h₃ := (pMustSym_suffix u).trans h₂
  dsimp only
  split
  · exact Meets.ok h₃
  split
  · exact Meets.ok h₃
  · next r hr =>
      have hlt := pKeyword_lt bracket_opens hr
      have hle := h₃.length_le
      refine Leaves.bind ((pArgs_leaves hexpr r (by omega)).mono
        ((pKeyword_suffix hr).trans h₃)) fun kids v hv => ?_
      exact Meets.ok hv

/-- By induction on the depth: NOT and the bracket take a byte. -/
theorem pExprAtom_leaves (n : Nat) : LeavesBelow n (pExprAtom n) := by
  induction n with
  | zero => exact fun s hs => absurd hs (Nat.not_lt_zero _)
  | succ n ih =>
      intro s hs
      unfold pExprAtom
      split
      · next r hr =>
          have hlt := pKeyword_lt not_opens hr
          refine Leaves.mono ?_ (pKeyword_suffix hr)
          exact Leaves.bind (ih r (by omega)) fun _ _ ht => Meets.ok ht
      split
      · next r hr =>
          have hlt := pKeyword_lt bracket_opens hr
          refine Leaves.mono ?_ (pKeyword_suffix hr)
          exact Leaves.bind (exprOr_leaves ih r (by omega))
            fun _ t ht => Meets.ok ((expect_suffix _ t).trans ht)
      · exact pOperand_leaves fun t ht => exprOr_leaves ih t (by omega)

/-- A level for every byte is enough. -/
theorem pExprOr_leaves (s : Bytes) : Leaves s (pExprOr s) :=
  exprOr_leaves (pExprAtom_leaves _) s (Nat.lt_succ_self _)

theorem pExprCmp_leaves (s : Bytes) : Leaves s (pExprCmp s) :=
  exprCmp_leaves (pExprAtom_leaves _) s (Nat.lt_succ_self _)

-- ====================================================== statements

/-- A list of items that always return. -/
theorem list_leaves {item : Production α} (hitem : ∀ s, Leaves s (item s)) (s : Bytes) :
    Leaves s (commaList item s) :=
  commaList_leaves (fun t _ => hitem t) s (Nat.lt_succ_self _)

theorem symbol_leaves (s : Bytes) : Leaves s (symbol s) := Meets.ok (pMustSym_suffix s)

/-- A type that is missing takes nothing. -/
theorem pType_suffix (s : Bytes) : (pType s).2 <:+ s := by
  unfold pType
  cases h : firstKeyword colTypes s with
  | none => exact List.suffix_refl s
  | some p => exact firstKeyword_suffix h

/-- A clause that may be left out. -/
theorem ifKeyword_leaves {kws : List String} {p : Production α} (hp : ∀ s, Leaves s (p s))
    (a : α) (s : Bytes) : Leaves s (ifKeyword kws p a s) := by
  unfold ifKeyword
  split
  · next r hr => exact (hp r).mono (pKeyword_suffix hr)
  · exact Meets.ok (List.suffix_refl s)

theorem pNames_leaves (s : Bytes) : Leaves s (pNames s) :=
  Leaves.bind (list_leaves symbol_leaves s) fun _ t ht =>
    Meets.ok ((expect_suffix _ t).trans ht)

/-- A column, or the primary key. -/
theorem pColumn_leaves (stmt : QLCreateTable) (s : Bytes) : Leaves s (pColumn stmt s) := by
  unfold pColumn
  split
  · next r hr =>
      have hrs := (expect_suffix "(" r).trans (pKeyword_suffix hr)
      exact Leaves.bind ((pNames_leaves _).mono hrs) fun _ t ht => Meets.ok ht
  · exact Meets.ok ((pType_suffix _).trans (pMustSym_suffix s))

/-- The comma pays for the next column. -/
theorem columnLoop_leaves (fuel : Nat) (stmt : QLCreateTable) (s : Bytes)
    (hfuel : s.length < fuel) : Leaves s (columnLoop fuel stmt s) := by
  induction fuel generalizing stmt s with
  | zero => omega
  | succ fuel ih =>
      unfold columnLoop
      refine Leaves.bind (pColumn_leaves stmt s) fun stmt t ht => ?_
      have hle := ht.length_le
      dsimp only
      split
      · next r hr =>
          have hlt := pKeyword_lt comma_opens hr
          exact (ih stmt r (by omega)).mono ((pKeyword_suffix hr).trans ht)
      · exact Meets.ok ht

theorem pColumns_leaves (stmt : QLCreateTable) (s : Bytes) : Leaves s (pColumns stmt s) :=
  Leaves.bind (columnLoop_leaves _ stmt s (Nat.lt_succ_self _)) fun _ t ht =>
    Meets.ok ((expect_suffix _ t).trans ht)

/-- `CREATE TABLE` -/
theorem pCreateTable_leaves (s : Bytes) : Leaves s (pCreateTable s) :=
  (ifKeyword_leaves (pColumns_leaves _) _ _).mono (pMustSym_suffix s)

theorem pIndexOn_leaves (stmt : QLCreateIndex) (s : Bytes) : Leaves s (pIndexOn stmt s) :=
  Leaves.bind ((ifKeyword_leaves pNames_leaves _ _).mono (pMustSym_suffix s))
    fun _ _ ht => Meets.ok ht

/-- `CREATE INDEX` -/
theorem pCreateIndex_leaves (s : Bytes) : Leaves s (pCreateIndex s) := by
  have hunique : ∀ t, Leaves t ((fun s => .ok (true, s) : Production Bool) t) :=
    fun t => Meets.ok (List.suffix_refl t)
  refine Leaves.bind (ifKeyword_leaves hunique _ s) fun unique t ht => ?_
  exact (ifKeyword_leaves (pIndexOn_leaves _) _ _).mono ((pMustSym_suffix t).trans ht)

/-- A star, or a name with an alias. -/
theorem pSelectExpr_leaves (s : Bytes) : Leaves s (pSelectExpr s) := by
  unfold pSelectExpr
  split
  · next r hr => exact Meets.ok (pKeyword_suffix hr)
  · exact (ifKeyword_leaves symbol_leaves _ _).mono (pMustSym_suffix s)

/-- One key, or two for a range. -/
theorem pIndexBy_leaves (node : QLScan) (s : Bytes) : Leaves s (pIndexBy node s) := by
  refine Leaves.bind (pExprCmp_leaves s) fun key1 t ht => ?_
  dsimp only
  split
  · exact Meets.ok ht
  · next r hr =>
      have hrs := (firstKeyword_suffix hr).trans ht
      exact Leaves.bind ((pExprCmp_leaves r).mono hrs) fun _ _ hu => Meets.ok hu

theorem pNumOr_leaves (i : Int64) (s : Bytes) : Leaves s (pNumOr i s) :=
  Meets.ok (pNum_suffix s)

theorem pLimit_leaves (node : QLScan) (s : Bytes) : Leaves s (pLimit node s) := by
  refine Leaves.bind (pNumOr_leaves _ s) fun limit t ht => ?_
  exact Leaves.bind ((ifKeyword_leaves (pNumOr_leaves _) _ t).mono ht)
    fun _ _ hu => Meets.ok hu

/-- The keys, the filter and the limit. -/
theorem pScan_leaves (node : QLScan) (s : Bytes) : Leaves s (pScan node s) := by
  refine Leaves.bind (ifKeyword_leaves (pIndexBy_leaves node) _ s) fun node t ht => ?_
  refine Leaves.bind ((ifKeyword_leaves pExprOr_leaves _ t).mono ht) fun filter u hu => ?_
  exact (ifKeyword_leaves (pLimit_leaves _) _ u).mono hu

theorem pFrom_leaves (s : Bytes) : Leaves s (pFrom s) :=
  (pScan_leaves _ _).mono (pMustSym_suffix s)

/-- `SELECT` -/
theorem pSelect_leaves (s : Bytes) : Leaves s (pSelect s) := by
  refine Leaves.bind (list_leaves pSelectExpr_leaves s) fun names t ht => ?_
  exact Leaves.bind ((ifKeyword_leaves pFrom_leaves _ t).mono ht) fun _ _ hu => Meets.ok hu

/-- `INSERT` -/
theorem pInsert_leaves (s : Bytes) : Leaves s (pInsert s) := by
  have hname := pMustSym_suffix s
  refine Leaves.bind ((ifKeyword_leaves pNames_leaves _ _).mono hname) fun names t ht => ?_
  have hvalues := ((expect_suffix "(" _).trans (expect_suffix "values" t)).trans ht
  exact Leaves.bind ((list_leaves pExprOr_leaves _).mono hvalues)
    fun _ u hu => Meets.ok ((expect_suffix _ u).trans hu)

theorem pAssign_leaves (s : Bytes) : Leaves s (pAssign s) :=
  Leaves.bind ((pExprOr_leaves _).mono ((expect_suffix "=" _).trans (pMustSym_suffix s)))
    fun _ _ ht => Meets.ok ht

/-- `UPDATE` -/
theorem pUpdate_leaves (s : Bytes) : Leaves s (pUpdate s) := by
  have hset := (expect_suffix "set" _).trans (pMustSym_suffix s)
  refine Leaves.bind ((list_leaves pAssign_leaves _).mono hset) fun assigns t ht => ?_
  exact Leaves.bind ((pScan_leaves _ _).mono ((expect_suffix _ t).trans ht))
    fun _ _ hu => Meets.ok hu

/-- `DELETE` -/
theorem pDelete_leaves (s : Bytes) : Leaves s (pDelete s) :=
  Leaves.bind ((ifKeyword_leaves (pScan_leaves _) _ _).mono (pMustSym_suffix s))
    fun _ _ ht => Meets.ok ht

theorem asStmt_leaves {wrap : α → Stmt} {p : Production α} {s t : Bytes}
    (h : Leaves t (p t)) (hts : t <:+ s) : Leaves s (asStmt wrap p t) := by
  refine Leaves.bind (h.mono hts) fun a r hr => ?_
  exact Meets.ok hr

/-- Every statement, and the error that there is none. -/
theorem pStmt_leaves (s : Bytes) : Leaves s (pStmt s) := by
  unfold pStmt
  split
  · exact Meets.ok (List.suffix_refl s)
  · next r hr => exact asStmt_leaves (pCreateTable_leaves r) (firstKeyword_suffix hr)
  · next r hr => exact asStmt_leaves (pCreateIndex_leaves r) (firstKeyword_suffix hr)
  · next r hr => exact asStmt_leaves (pSelect_leaves r) (firstKeyword_suffix hr)
  · next r hr => exact asStmt_leaves (pInsert_leaves r) (firstKeyword_suffix hr)
  · next r hr => exact asStmt_leaves (pUpdate_leaves r) (firstKeyword_suffix hr)
  · next r hr => exact asStmt_leaves (pDelete_leaves r) (firstKeyword_suffix hr)
  · next r hr => exact asStmt_leaves (pSelect_leaves r) (firstKeyword_suffix hr)
  · next r hr => exact Meets.ok (firstKeyword_suffix hr)
  · next r hr => exact Meets.ok (firstKeyword_suffix hr)
  · next r hr => exact Meets.ok (firstKeyword_suffix hr)

/-- `Parse` returns a statement or the error. -/
theorem parse_returns (input : Bytes) : ∃ r, parse input = .ok r := by
  obtain ⟨ast, s, hrun, -⟩ := (pStmt_leaves input).returns
  unfold parse
  rw [hrun, ok_bind]
  dsimp only
  split
  · exact ⟨_, rfl⟩
  · exact ⟨_, rfl⟩

end Svacara.Sql

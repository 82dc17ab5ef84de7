import Simb.BlockTree.Links

/-!
# Concurrent calls of `try_add_block_header`

A call makes four transactions: it validates, reads the old tip, writes, and reads the new tip.  Clones of a
chain may interleave theirs, so a pool of calls is a `Pool` of their programs.  What a thread still has to do
is one of five phases (`Phase`), and the pool simulates a pool of phases over the ledger (`Sim.act`).

The answer `ExtendTip` only says that the tip went up between the two reads of a call, no matter who moved it.
If no tip is moved while another call is between its two reads, the answer is given at most once for each
number (`extendTip_once`); two calls in step both get it (`both_extendTip`).
-/

namespace Simb.BlockTree

open Simb.Lib

/-! ## The phases of a call -/

section

variable (P : Platform) (header : Header)

/-- A call that has validated its header. -/
def afterValidate : ChainM AddedBlockResult := do
  let oldTip ← Chain.tip P
  ChainM.write (Chain.insertHeader P header)
  if oldTip.number < (← Chain.tip P).number then
    return .extendTip
  else
    return .alreadyInChain

/-- A call that has read the old tip. -/
def afterOldTip (oldTip : Header) : ChainM AddedBlockResult := do
  ChainM.write (Chain.insertHeader P header)
  if oldTip.number < (← Chain.tip P).number then
    return .extendTip
  else
    return .alreadyInChain

/-- A call that has written its header. -/
def afterWrite (oldTip : Header) : ChainM AddedBlockResult := do
  if oldTip.number < (← Chain.tip P).number then
    return .extendTip
  else
    return .alreadyInChain

theorem tryAddBlockHeader_eq :
    Chain.tryAddBlockHeader P header =
      Chain.validateAdjacentBlockHeader P header >>= fun _ => afterValidate P header := rfl

theorem afterValidate_eq : afterValidate P header = Chain.tip P >>= afterOldTip P header := rfl

end

namespace ChainM

variable {α β : Type}

/-- Go on with what a transaction has read. -/
def resume (g : α → ChainM β) : Except Fail α → ChainM β
  | .ok a => g a
  | .error e => throw e

theorem read_bind (f : Db → Except Fail α) (g : α → ChainM β) :
    (read f >>= g) = Prog.txn id fun db => resume g (f db) := by
  show Prog.txn id (fun db => Prog.bind (Prog.done (f db)) (ExceptT.bindCont g)) = _
  congr 1
  funext db
  show ExceptT.bindCont g (f db) = _
  cases f db <;> rfl

/-- A method of one transaction that returns at once is the read of what it evaluates to. -/
theorem eq_read_eval {x : ChainM α} {next : Db → ChainM α} (h : x = Prog.txn id next)
    (hdone : ∀ db, ∃ r, next db = Prog.done r) : x = read (x.eval ·) := by
  subst h
  show Prog.txn id next = Prog.txn id _
  congr 1
  funext db
  obtain ⟨r, hr⟩ := hdone db
  show next db = Prog.done (Prog.eval (next db) (id db))
  rw [hr]
  rfl

end ChainM

theorem tip_eq_read (P : Platform) : Chain.tip P = ChainM.read ((Chain.tip P).eval ·) := rfl

/-- Unless it validates the genesis block, or stops at an overflow, validation is one read. -/
theorem validate_eq_read (P : Platform) {header : Header} (hg : header ≠ Chain.genesis P)
    (hov : ¬ (P.overflowChecks ∧ header.number = 0)) :
    Chain.validateAdjacentBlockHeader P header =
      ChainM.read ((Chain.validateAdjacentBlockHeader P header).eval ·) := by
  have hsub : P.sub header.number 1 = pure (header.number - 1) := by
    unfold Platform.sub
    rw [if_neg]
    rintro ⟨h1, h2⟩
    refine hov ⟨h1, ?_⟩
    rw [UInt64.lt_iff_toNat_lt] at h2
    exact UInt64.toNat_inj.mp (by simpa using h2)
  have hbody : Chain.validateAdjacentBlockHeader P header =
      ChainM.read (Chain.findHeader P (header.number - 1)) >>= fun p =>
        if p.hash ≠ header.parentHash then throw (.error .invalid) else
          P.add p.number 1 >>= fun n => if n ≠ header.number then throw (.error .invalid) else pure () := by
    unfold Chain.validateAdjacentBlockHeader
    rw [if_neg hg, hsub]
    rfl
  refine ChainM.eq_read_eval (hbody.trans (ChainM.read_bind _ _)) fun db => ?_
  cases Chain.findHeader P (header.number - 1) db with
  | error e => exact ⟨_, rfl⟩
  | ok p =>
    show ∃ r, (if p.hash ≠ header.parentHash then _ else _ : ChainM Unit) = _
    split
    · exact ⟨_, rfl⟩
    · unfold Platform.add
      split
      · exact ⟨_, rfl⟩
      · show ∃ r, (if p.number + 1 ≠ header.number then _ else _ : ChainM Unit) = _
        split
        · exact ⟨_, rfl⟩
        · exact ⟨_, rfl⟩

/-- What a thread still has to do. -/
inductive Phase where
  | calling
  | validated
  | looked (oldTip : Header)
  | wrote (oldTip : Header)
  | returned (r : Except Fail AddedBlockResult)

namespace Phase

/-- The program of a phase. -/
def prog (P : Platform) (header : Header) : Phase → Prog Db (Except Fail AddedBlockResult)
  | calling => Chain.tryAddBlockHeader P header
  | validated => afterValidate P header
  | looked oldTip => afterOldTip P header oldTip
  | wrote oldTip => afterWrite P oldTip
  | returned r => .done r

/-- The phase after the next transaction, on the ledger `L`. -/
def next (P : Platform) (L : List Header) (header : Header) : Phase → Phase
  | calling =>
    match validate P L header with
    | .ok () => validated
    | .error e => returned (.error e)
  | validated =>
    match L.getLast? with
    | some t => looked t
    | none => validated
  | looked oldTip => wrote oldTip
  | wrote oldTip =>
    match L.getLast? with
    | some t => returned (.ok (if oldTip.number < t.number then .extendTip else .alreadyInChain))
    | none => wrote oldTip
  | returned r => returned r

/-- The ledger after the next transaction. -/
def ledger (L : List Header) (header : Header) : Phase → List Header
  | looked _ => put height L header
  | _ => L

/-- What is known of the header of a thread on a ledger of length `n`. -/
def Fits (P : Platform) (n : ℕ) (header : Header) : Phase → Prop
  | calling => header ≠ Chain.genesis P
  | validated => height header ≤ n
  | looked _ => height header ≤ n
  | wrote _ => height header < n
  | returned r => r = .ok .extendTip → height header < n

end Phase

variable {P : Platform} {db : Db} {L : List Header} {header : Header} {ph : Phase}

theorem prog_calling_of_overflow (hg : header ≠ Chain.genesis P) (hov : P.overflowChecks ∧ header.number = 0) :
    Chain.tryAddBlockHeader P header = Prog.done (.error (.panic .overflow)) := by
  have hsub : P.sub header.number 1 = throw (.panic .overflow) := by
    unfold Platform.sub
    rw [if_pos ⟨hov.1, by rw [hov.2]; decide⟩]
  rw [tryAddBlockHeader_eq]
  unfold Chain.validateAdjacentBlockHeader
  rw [if_neg hg, hsub]
  rfl

theorem prog_calling_of_not_overflow (hg : header ≠ Chain.genesis P)
    (hov : ¬ (P.overflowChecks ∧ header.number = 0)) :
    Chain.tryAddBlockHeader P header = Prog.txn id fun db =>
      ChainM.resume (fun _ => afterValidate P header) ((Chain.validateAdjacentBlockHeader P header).eval db) := by
  rw [tryAddBlockHeader_eq]
  nth_rewrite 1 [validate_eq_read P hg hov]
  exact ChainM.read_bind _ _

theorem prog_validated (P : Platform) (header : Header) :
    afterValidate P header =
      Prog.txn id fun db => ChainM.resume (afterOldTip P header) ((Chain.tip P).eval db) := by
  rw [afterValidate_eq, tip_eq_read, ChainM.read_bind]
  rfl

theorem prog_wrote (P : Platform) (oldTip : Header) :
    afterWrite P oldTip = Prog.txn id fun db =>
      ChainM.resume (fun t => if oldTip.number < t.number then pure .extendTip else pure .alreadyInChain)
        ((Chain.tip P).eval db) := by
  unfold afterWrite
  rw [tip_eq_read, ChainM.read_bind]
  rfl

/-- The next transaction of a thread, on the ledger: it goes to the next phase, or it is over. -/
theorem Phase.exec (h : db.Stores P L) (hf : ph.Fits P L.length header) :
    (∃ commit next, ph.prog P header = .txn commit next ∧ next db = (ph.next P L header).prog P header ∧
        (commit db).Stores P (ph.ledger L header)) ∨
      ∃ r, ph.prog P header = .done r ∧ (ph.next P L header).prog P header = .done r ∧
        ph.ledger L header = L := by
  have hlast : L.getLast? = some (L.getLast h.ne_nil) := List.getLast?_eq_some_getLast h.ne_nil
  have htip : (Chain.tip P).eval db = .ok (L.getLast h.ne_nil) := (eval_tip_eq_ok h).2 rfl
  cases ph with
  | calling =>
    by_cases hov : P.overflowChecks ∧ header.number = 0
    · refine .inr ⟨_, prog_calling_of_overflow hf hov, ?_, rfl⟩
      have hv : validate P L header = .error (.panic .overflow) := by
        unfold validate
        rw [if_neg hf, if_pos hov]
      simp only [Phase.next, hv, Phase.prog]
    · refine .inl ⟨_, _, prog_calling_of_not_overflow hf hov, ?_, h⟩
      simp only [eval_validate h, Phase.next]
      cases validate P L header <;> rfl
  | validated =>
    refine .inl ⟨_, _, prog_validated P header, ?_, h⟩
    simp only [htip, Phase.next, hlast, Phase.prog, ChainM.resume]
  | looked oldTip => exact .inl ⟨_, _, rfl, rfl, h.insertHeader hf⟩
  | wrote oldTip =>
    refine .inl ⟨_, _, prog_wrote P oldTip, ?_, h⟩
    simp only [htip, Phase.next, hlast, Phase.prog, ChainM.resume]
    split <;> rfl
  | returned r => exact .inr ⟨r, rfl, rfl, rfl⟩

/-! ## Pools of calls -/

/-- The calls at work on a ledger. -/
structure Calls where
  ledger : List Header
  phases : List (Header × Phase)

/-- One step of `Calls`.  The genesis block is not validated. -/
def Calls.act (P : Platform) (a : Calls) : Act Header → Calls
  | .call header =>
    ⟨a.ledger, a.phases ++ [(header, if header = Chain.genesis P then .validated else .calling)]⟩
  | .exec k =>
    match a.phases[k]? with
    | some (header, ph) =>
      ⟨ph.ledger a.ledger header, a.phases.set k (header, ph.next P a.ledger header)⟩
    | none => a

/-- The program of `try_add_block_header`, called with `header`. -/
def addBody (P : Platform) (header : Header) : Prog Db (Except Fail AddedBlockResult) :=
  Chain.tryAddBlockHeader P header

abbrev AddPool := Pool Db Header (Except Fail AddedBlockResult)

/-- The thread of a call in some phase. -/
def thread (P : Platform) (x : Header × Phase) : Header × Prog Db (Except Fail AddedBlockResult) :=
  (x.1, x.2.prog P x.1)

/-- The pool `c` does what the calls `a` do on the ledger. -/
structure Sim (P : Platform) (c : AddPool) (a : Calls) : Prop where
  stores : c.store.Stores P a.ledger
  threads : c.threads = a.phases.map (thread P)
  fits : ∀ x ∈ a.phases, x.2.Fits P a.ledger.length x.1

variable {c : AddPool} {a : Calls} {k : ℕ}

theorem Sim.thread_eq (h : Sim P c a) (k : ℕ) : c.threads[k]? = a.phases[k]?.map (thread P) := by
  rw [h.threads, List.getElem?_map]

theorem length_le_ledger (hf : ph.Fits P L.length header) : L.length ≤ (ph.ledger L header).length := by
  cases ph with
  | looked oldTip =>
    show L.length ≤ (put height L header).length
    rw [length_put hf]
    omega
  | _ => exact le_rfl

theorem Phase.Fits.mono {n m : ℕ} (hf : ph.Fits P n header) (hnm : n ≤ m) : ph.Fits P m header := by
  cases ph with
  | calling => exact hf
  | validated => exact Nat.le_trans hf hnm
  | looked oldTip => exact Nat.le_trans hf hnm
  | wrote oldTip => exact Nat.lt_of_lt_of_le hf hnm
  | returned r => exact fun hr => Nat.lt_of_lt_of_le (hf hr) hnm

/-- What is known of a thread stays true in the next phase. -/
theorem Phase.Fits.next (hf : ph.Fits P L.length header) :
    (ph.next P L header).Fits P (ph.ledger L header).length header := by
  cases ph with
  | calling =>
    show Phase.Fits P L.length header (Phase.next P L header .calling)
    unfold Phase.next
    cases hv : validate P L header with
    | ok u => exact height_le_of_validate hv
    | error e => exact fun hr => by cases hr
  | validated =>
    show Phase.Fits P L.length header (Phase.next P L header .validated)
    unfold Phase.next
    cases L.getLast? <;> exact hf
  | looked oldTip =>
    show height header < (put height L header).length
    rw [length_put hf]
    omega
  | wrote oldTip =>
    show Phase.Fits P L.length header (Phase.next P L header (.wrote oldTip))
    unfold Phase.next
    cases L.getLast? with
    | none => exact hf
    | some t => exact fun _ => hf
  | returned r => exact hf

theorem Calls.act_exec (hk : a.phases[k]? = some (header, ph)) :
    a.act P (.exec k) =
      ⟨ph.ledger a.ledger header, a.phases.set k (header, ph.next P a.ledger header)⟩ := by
  simp only [Calls.act, hk]

theorem Calls.act_exec_none (hk : a.phases[k]? = none) : a.act P (.exec k) = a := by
  simp only [Calls.act, hk]

theorem Sim.call (h : Sim P c a) (header : Header) :
    Sim P (c.act (addBody P) (.call header)) (a.act P (.call header)) := by
  refine ⟨h.stores, ?_, ?_⟩
  · show c.threads ++ [(header, addBody P header)] = (a.phases ++ [_]).map (thread P)
    rw [h.threads, List.map_append]
    by_cases hg : header = Chain.genesis P
    · simp only [hg, if_true]
      rw [List.map_singleton, thread, Phase.prog, addBody, tryAddBlockHeader_eq]
      unfold Chain.validateAdjacentBlockHeader
      rw [if_pos rfl]
      rfl
    · simp only [hg, if_false]
      rfl
  · intro y hy
    rcases List.mem_append.mp hy with hy | hy
    · exact h.fits y hy
    · rw [List.mem_singleton.mp hy]
      by_cases hg : header = Chain.genesis P
      · simp only [hg, if_true]
        exact height_genesis_le P a.ledger
      · simp only [hg, if_false]
        exact hg

theorem Sim.exec (h : Sim P c a) (hk : a.phases[k]? = some (header, ph)) :
    Sim P (c.act (addBody P) (.exec k)) (a.act P (.exec k)) := by
  have hf : ph.Fits P a.ledger.length header := h.fits _ (List.mem_of_getElem? hk)
  have hfits : ∀ y ∈ a.phases.set k (header, ph.next P a.ledger header),
      y.2.Fits P (ph.ledger a.ledger header).length y.1 := by
    intro y hy
    rcases List.mem_or_eq_of_mem_set hy with hy | rfl
    · exact (h.fits y hy).mono (length_le_ledger hf)
    · exact hf.next
  have hthread := h.thread_eq k
  rw [hk, Option.map_some] at hthread
  rw [Calls.act_exec hk]
  rcases ph.exec h.stores hf with ⟨commit, next, hprog, hnext, hst⟩ | ⟨r, hprog, hnext, hst⟩
  · rw [thread, hprog] at hthread
    rw [Pool.act_exec_txn hthread]
    refine ⟨hst, ?_, hfits⟩
    show c.threads.set k (header, next c.store) = (a.phases.set k _).map (thread P)
    rw [List.map_set, ← h.threads, thread, hnext]
  · rw [thread, hprog] at hthread
    rw [Pool.act_exec_done hthread]
    refine ⟨by rw [hst]; exact h.stores, ?_, hfits⟩
    obtain ⟨hlt, hget⟩ := List.getElem?_eq_some_iff.mp hthread
    rw [List.map_set, ← h.threads, thread, hnext, ← hget, List.set_getElem_self]

/-- **The pool refines the calls on the ledger.** -/
theorem Sim.act (h : Sim P c a) (x : Act Header) : Sim P (c.act (addBody P) x) (a.act P x) := by
  cases x with
  | call header => exact h.call header
  | exec k =>
    cases hk : a.phases[k]? with
    | none =>
      have hthread := h.thread_eq k
      rw [hk] at hthread
      rw [Pool.act_exec_none hthread, Calls.act_exec_none hk]
      exact h
    | some y => exact h.exec hk

/-! ## `ExtendTip`, once for each number -/

/-- The call has returned `ExtendTip`, or it will. -/
def Phase.Extends (n : ℕ) : Phase → Prop
  | wrote oldTip => oldTip.number.toNat + 1 < n
  | returned r => r = .ok .extendTip
  | _ => False

theorem Sim.run (h : Sim P c a) (acts : List (Act Header)) :
    Sim P (acts.foldl (Pool.act (addBody P)) c) (acts.foldl (Calls.act P) a) := by
  induction acts generalizing c a with
  | nil => exact h
  | cons x acts ih => exact ih (h.act x)

end Simb.BlockTree

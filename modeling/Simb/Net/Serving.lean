import Simb.BlockTree.Links
import Simb.Net.ChainSpec

/-!
# Headers from one chain to another

A peer answers a request for headers with a slice of its ledger (`headersFrom_eq`), cut off at its tip
(`serves_stored_range`).  A chain that has a prefix of a linked ledger takes the slice that follows it header by
header, and rejects none (`addHeaders_slice`).
-/

namespace Simb.Net

open Simb.BlockTree Simb.Tasks Simb.Lib

variable {P : Platform} {db peer : Db} {L M : List Header}

/-! ## Serving -/

theorem drop_eq_cons {k : ℕ} {b : Header} (h : L[k]? = some b) : L.drop k = b :: L.drop (k + 1) := by
  obtain ⟨hlt, rfl⟩ := List.getElem?_eq_some_iff.mp h
  exact (List.getElem_cons_drop hlt).symm

theorem drop_eq_nil {k : ℕ} (h : L[k]? = none) : L.drop k = [] :=
  List.drop_eq_nil_iff.mpr (List.getElem?_eq_none_iff.mp h)

/-- One turn of the loop. -/
theorem headersFrom_succ (h : db.Stores P L) (n : ℕ) (number : UInt64) :
    ChainNetworkManager.headersFrom P db (n + 1) number =
      match L[number.toNat]? with
      | none => .ok []
      | some b =>
        if P.overflowChecks ∧ number + 1 < number then .error (.chain .overflow)
        else (ChainNetworkManager.headersFrom P db n (number + 1)).map (b :: ·) := by
  rw [ChainNetworkManager.headersFrom, ChainM.eval_eq, runOn_getHeaderByBlockNumber h]
  cases hb : L[number.toNat]? with
  | none => rfl
  | some b =>
    have hnum : b.number = number := UInt64.toNat_inj.mp (h.number_toNat hb)
    simp only [hnum, ChainM.eval_eq, runOn_add]
    by_cases hov : P.overflowChecks ∧ number + 1 < number
    · simp only [if_pos hov]
    · simp only [if_neg hov]

/-- What `handle_get_block_headers_request` answers, unless it panics on the last number. -/
theorem headersFrom_eq_ok (h : db.Stores P L) {n : ℕ} {number : UInt64} {headers : List Header}
    (hfit : number.toNat + n ≤ 2 ^ 64) (he : ChainNetworkManager.headersFrom P db n number = .ok headers) :
    headers = (L.drop number.toNat).take n := by
  induction n generalizing number headers with
  | zero =>
    cases he
    simp
  | succ n ih =>
    rw [headersFrom_succ h] at he
    cases hb : L[number.toNat]? with
    | none =>
      rw [hb] at he
      cases he
      rw [drop_eq_nil hb]
      rfl
    | some b =>
      simp only [hb] at he
      split at he
      · cases he
      cases hrest : ChainNetworkManager.headersFrom P db n (number + 1) with
      | error p =>
        rw [hrest] at he
        cases he
      | ok rest =>
        rw [hrest] at he
        cases he
        rw [drop_eq_cons hb, List.take_succ_cons]
        cases n with
        | zero =>
          cases hrest
          simp
        | succ n =>
          have hsucc : (number + 1).toNat = number.toNat + 1 := toNat_add_one_of_lt (by omega)
          rw [ih (by rw [hsucc]; omega) hrest, hsucc]

/-- On a chain that is not full it does not panic: the number after a header that is there fits. -/
theorem headersFrom_eq (h : db.Stores P L) (hlen : L.length < 2 ^ 64) (n : ℕ) (number : UInt64) :
    ChainNetworkManager.headersFrom P db n number = .ok ((L.drop number.toNat).take n) := by
  induction n generalizing number with
  | zero => simp [ChainNetworkManager.headersFrom]
  | succ n ih =>
    rw [headersFrom_succ h]
    cases hb : L[number.toNat]? with
    | none => simp [drop_eq_nil hb]
    | some b =>
      obtain ⟨hlt, -⟩ := List.getElem?_eq_some_iff.mp hb
      have hsucc : (number + 1).toNat = number.toNat + 1 := toNat_add_one_of_lt (by omega)
      have hno : ¬ (P.overflowChecks ∧ number + 1 < number) := by
        rintro ⟨-, hov⟩
        rw [UInt64.lt_iff_toNat_lt, hsucc] at hov
        omega
      simp only [if_neg hno]
      rw [ih (number + 1), hsucc, drop_eq_cons hb, List.take_succ_cons]
      rfl

/-- **What a peer serves.**  On every reachable chain whose tip is below the last number, any request is answered with
the stored headers from `start_block` on, in order, up to the limit or the tip.  Nothing overflows on the way: a build
that checks for overflow answers the same. -/
theorem serves_stored_range {m : ChainNetworkManager} {t : Header} (h : Reachable P m.chain)
    (ht : (Chain.tip P).eval m.chain = .ok t) (hmax : t.number.toNat < 2 ^ 64 - 1) (request : HeadersRequest) :
    ∃ headers, (∀ overflowChecks,
        m.handleGetBlockHeadersRequest { P with overflowChecks } request = .ok headers) ∧
      headers.length = min request.limit.toNat (t.number.toNat + 1 - request.startBlock.toNat) ∧
      ∀ (i : ℕ) (b : Header), headers[i]? = some b → b.number.toNat = request.startBlock.toNat + i ∧
        (Chain.getHeaderByBlockNumber P b.number).eval m.chain = .ok b := by
  obtain ⟨L, hL⟩ := h.stores
  rw [eval_tip_eq_ok hL] at ht
  subst ht
  have hnum := hL.number_getLast
  have hpos := hL.length_pos
  refine ⟨(L.drop request.startBlock.toNat).take request.limit.toNat, ?_, ?_, ?_⟩
  · intro overflowChecks
    exact headersFrom_eq (P := { P with overflowChecks }) ⟨hL.ne_nil, hL.numbered, hL.header, hL.hash⟩ (by omega) _ _
  · rw [List.length_take, List.length_drop]
    omega
  · intro i b hb
    obtain ⟨hlt, -⟩ := List.getElem?_eq_some_iff.mp hb
    rw [List.length_take] at hlt
    rw [List.getElem?_take_of_lt (by omega), List.getElem?_drop] at hb
    have hheight := hL.number_toNat hb
    exact ⟨hheight, (eval_getHeaderByBlockNumber_eq_ok hL).2 (by rw [hheight]; exact hb)⟩

/-- A fresh chain, asked for as many headers as can be asked for. -/
theorem serves_genesis :
    let m := ChainNetworkManager.new (Chain.new (sample true) Db.empty) ∅
    let request : HeadersRequest := { limit := 0 - 1, startBlock := 0 }
    ∃ headers, (∀ overflowChecks,
        m.handleGetBlockHeadersRequest { sample true with overflowChecks } request = .ok headers) ∧
      headers.length = 1 := by
  intro m request
  have ht : (Chain.tip (sample true)).eval m.chain = .ok (Chain.genesis (sample true)) :=
    (eval_tip_eq_ok (stores_new _)).2 rfl
  obtain ⟨headers, hok, hlen, -⟩ := serves_stored_range (m := m) .new ht (by decide) request
  exact ⟨headers, hok, by rw [hlen]; decide⟩

/-! ## Taking -/

/-- `try_add_block_header` accepts the headers, one after the other. -/
def AllAdded (P : Platform) : Db → List Header → Prop
  | _, [] => True
  | db, header :: headers =>
    (∃ r, (Chain.tryAddBlockHeader P header).eval db = .ok r) ∧ AllAdded P (addTo P db header) headers

/-- The next header of a linked ledger is accepted by a chain that has the ledger up to it. -/
theorem validate_take (hlinked : Linked Header.hash Header.parentHash L) (hnum : Numbered height L) {k : ℕ} (hk : 0 < k)
    {b : Header} (hb : L[k]? = some b) : validate P (L.take k) b = .ok () := by
  have hheight : height b = k := hnum k b hb
  obtain ⟨hlt, -⟩ := List.getElem?_eq_some_iff.mp hb
  have hp : L[k - 1]? = some L[k - 1] := List.getElem?_eq_getElem (by omega)
  refine validate_of_parent ?_ (p := L[k - 1]) ?_ ?_
  · intro h0
    unfold height at hheight
    rw [h0] at hheight
    exact hk.ne hheight
  · rw [hheight, List.getElem?_take_of_lt (by omega), hp]
  · refine (hlinked (k - 1) _ b hp ?_).symm
    rw [Nat.sub_add_cancel hk, hb]

theorem put_take (hnum : Numbered height L) {k : ℕ} {b : Header} (hb : L[k]? = some b) :
    put height (L.take k) b = L.take (k + 1) := by
  obtain ⟨hlt, -⟩ := List.getElem?_eq_some_iff.mp hb
  unfold put
  rw [hnum k b hb, List.length_take, if_neg (by omega), List.take_add_one, hb]
  rfl

/-- **A chain takes what follows its ledger.** -/
theorem addHeaders_slice (hlinked : Linked Header.hash Header.parentHash L) (hnum : Numbered height L)
    {m : ChainNetworkManager} {k : ℕ} (hk : 0 < k) (h : m.chain.Stores P (L.take k)) (n : ℕ) :
    ∃ m', m.addHeaders P ((L.drop k).take n) = .ok m' ∧ m'.chain.Stores P (L.take (k + n)) ∧
      AllAdded P m.chain ((L.drop k).take n) := by
  induction n generalizing m k with
  | zero => exact ⟨m, rfl, h, trivial⟩
  | succ n ih =>
    cases hb : L[k]? with
    | none =>
      rw [drop_eq_nil hb]
      rw [List.take_of_length_le (List.getElem?_eq_none_iff.mp hb)] at h
      refine ⟨m, rfl, ?_, trivial⟩
      rw [List.take_of_length_le ((List.getElem?_eq_none_iff.mp hb).trans (by omega))]
      exact h
    | some b =>
      have hv := validate_take (P := P) hlinked hnum hk hb
      have hrun := runOn_tryAddBlockHeader h b
      have hstores := h.insertHeader (height_le_of_validate hv)
      rw [hv] at hrun
      rw [put_take hnum hb] at hstores
      obtain ⟨m', hm', hst', hadded⟩ :=
        ih (m := { m with chain := Chain.insertHeader P b m.chain }) (Nat.succ_pos k) hstores
      rw [drop_eq_cons hb, List.take_succ_cons]
      refine ⟨m', ?_, ?_, ?_, ?_⟩
      · unfold ChainNetworkManager.addHeaders
        rw [hrun]
        exact hm'
      · rw [show k + (n + 1) = k + 1 + n by omega]
        exact hst'
      · rw [ChainM.eval_eq, hrun]
        exact ⟨_, rfl⟩
      · rw [addTo_of_ok h hv]
        exact hadded

/-- The output of a download that follows the ledger of the chain. -/
theorem onSyncOutput_slice (hlinked : Linked Header.hash Header.parentHash L) (hnum : Numbered height L)
    {m : ChainNetworkManager} {k : ℕ} (hk : 0 < k) (h : m.chain.Stores P (L.take k)) (n : ℕ) :
    ∃ chain, m.onSyncOutput P (.ok ((L.drop k).take n)) = .ok { m with chain, pendingSyncRequest := false } ∧
      chain.Stores P (L.take (k + n)) ∧ AllAdded P m.chain ((L.drop k).take n) := by
  obtain ⟨m₁, hadd, hstores, hall⟩ := addHeaders_slice hlinked hnum hk h n
  obtain ⟨added, rfl⟩ := addHeaders_eq hadd
  obtain ⟨t, ht⟩ := HasLedger.tip ⟨_, hstores⟩
  refine ⟨_, ?_, hstores, hall⟩
  show m.addHeaders P _ >>= _ = _
  rw [hadd]
  show { m with chain := added.foldl (addTo P) m.chain }.tip P >>= _ = _
  rw [ht]
  rfl

/-! ## Prefixes of a chain -/

/-- `db` has the headers of `peer` up to number `n`, and ends there. -/
structure UpTo (P : Platform) (db peer : Db) (n : UInt64) : Prop where
  tip : ∃ t, (Chain.tip P).eval db = .ok t ∧ t.number = n
  header : ∀ k ≤ n, db.header[k]? = peer.header[k]?

theorem upTo_iff (h : db.Stores P M) (hpeer : peer.Stores P L) {n : UInt64} (hn : n.toNat < L.length) :
    UpTo P db peer n ↔ M = L.take (n.toNat + 1) := by
  have hlast := h.number_getLast
  have hpos := h.length_pos
  constructor
  · rintro ⟨⟨t, ht, htn⟩, hheader⟩
    rw [eval_tip_eq_ok h] at ht
    rw [← ht, htn] at hlast
    refine List.ext_getElem? fun i => ?_
    by_cases hi : i ≤ n.toNat
    · have hi64 : (UInt64.ofNat i).toNat = i := UInt64.toNat_ofNat_of_lt' (lt_of_le_of_lt hi n.toNat_lt)
      have heq := hheader (UInt64.ofNat i) (by rw [UInt64.le_iff_toNat_le, hi64]; exact hi)
      rw [h.header, hpeer.header, hi64] at heq
      rw [List.getElem?_take_of_lt (by omega)]
      exact Option.map_injective P.headers.encode_injective heq
    · rw [List.getElem?_eq_none (by omega), List.getElem?_eq_none (by rw [List.length_take]; omega)]
  · rintro rfl
    rw [List.length_take] at hlast
    refine ⟨⟨_, (eval_tip_eq_ok h).2 rfl, UInt64.toNat_inj.mp (by rw [hlast]; omega)⟩, ?_⟩
    intro k hk
    rw [UInt64.le_iff_toNat_le] at hk
    rw [h.header, hpeer.header, List.getElem?_take_of_lt (by omega)]

/-- The tip of such a chain is the header of `peer` there. -/
theorem eval_tip_take {n : UInt64} (h : db.Stores P (L.take (n.toNat + 1))) (hpeer : peer.Stores P L)
    (hn : n.toNat < L.length) : (Chain.tip P).eval db = (Chain.getHeaderByBlockNumber P n).eval peer := by
  have hget := (eval_getHeaderByBlockNumber_eq_ok hpeer).2 (List.getElem?_eq_getElem hn)
  rw [hget, eval_tip_eq_ok h, List.getLast_eq_getElem, List.getElem_take]
  simp only [List.length_take]
  congr 1
  omega

end Simb.Net

import Memiavl.Cronos.Types

/-! `app/proposal.go`: the block list of a validator, and the transactions that it keeps out of
proposals. -/
namespace Cronos

open List Option

/-- What a node needs to read a block list; each step may fail. -/
structure BlockListReader where
  /-- `age.Decrypt` with the identity of the node, and the read of the plain text. -/
  decrypt : Bytes → Except String Bytes
  readAll : Bytes → Except String Bytes
  /-- `json.Unmarshal`: the addresses. -/
  unmarshal : Bytes → Except String (List String)
  stringToBytes : String → Except String Bytes
  bytesToString : Bytes → Except String String

structure ProposalHandler where
  /-- There is none if it is not a validator node. -/
  identity : Option BlockListReader
  blocklist : Finset String := ∅
  lastBlockList : Bytes := []

namespace BlockListReader

def normalize (r : BlockListReader) (s : String) : Except String String :=
  (r.stringToBytes s >>= r.bytesToString).mapError fun err =>
    s!"invalid bech32 address: {s}, err: {err}"

def convert (r : BlockListReader) (m : Finset String) (addresses : List String) :
    Except String (Finset String) :=
  addresses.foldlM (fun m s => do let encoded ← r.normalize s; .ok (insert encoded m)) m

def read (r : BlockListReader) (blob : Bytes) : Except String (Finset String) :=
  if blob = [] then .ok ∅
  else do
    let reader ← r.decrypt blob
    let data ← r.readAll reader
    let addresses ← r.unmarshal data
    r.convert ∅ addresses

end BlockListReader

namespace ProposalHandler

/-- `SetBlockList`, with its error. The blob is remembered before it is read. -/
def setBlockList (h : ProposalHandler) (blob : Bytes) : ProposalHandler × Option String :=
  match h.identity with
  | none => (h,none)
  | some r =>
    if h.lastBlockList = blob then (h,none)
    else
      let h := { h with lastBlockList := blob }
      match r.read blob with
      | .error err => (h,some err)
      | .ok m => ({ h with blocklist := m },none)

def setBlockLists (h : ProposalHandler) (blobs : List Bytes) : ProposalHandler :=
  blobs.foldl (fun h blob => (h.setBlockList blob).1) h

/-- A call that returns nil puts the list of its blob in force. One that fails leaves the list as
it was, and fails again when it is repeated. -/
def Obeys (r : BlockListReader) (h : ProposalHandler) (blob : Bytes) : Prop :=
  match h.setBlockList blob with
  | (h',none) => r.read blob = .ok h'.blocklist
  | (h',some _) => h'.blocklist = h.blocklist ∧ (h'.setBlockList blob).2 ≠ none

/-- The list in force is the one of the blob that is remembered. -/
structure Current (r : BlockListReader) (h : ProposalHandler) : Prop where
  identity : h.identity = some r
  read : r.read h.lastBlockList = .ok h.blocklist

variable {r : BlockListReader} {h : ProposalHandler} {blob : Bytes}

theorem Current.obeys (hc : Current r h) {m : Finset String} (hm : r.read blob = .ok m) :
    Current r (h.setBlockList blob).1 ∧ Obeys r h blob := by
  by_cases hsame : h.lastBlockList = blob
  · have hset : h.setBlockList blob = (h,none) := by simp [setBlockList,hc.identity,hsame]
    rw [Obeys,hset]
    exact ⟨hc,hsame ▸ hc.read⟩
  · have hset : h.setBlockList blob = ({ h with lastBlockList := blob, blocklist := m },none) := by
      simp [setBlockList,hc.identity,hsame,hm]
    rw [Obeys,hset]
    exact ⟨⟨hc.identity,hm⟩,hm⟩

/-- A repeated call finds its blob remembered. -/
theorem Current.not_obeys (hc : Current r h) {err : String} (herr : r.read blob = .error err) :
    ¬Obeys r h blob := by
  have hne : h.lastBlockList ≠ blob := by
    rintro rfl
    cases hc.read.symm.trans herr
  have hset : h.setBlockList blob = ({ h with lastBlockList := blob },some err) := by
    simp [setBlockList,hc.identity,hne,herr]
  rw [Obeys,hset]
  rintro ⟨-,hagain⟩
  exact hagain (by simp [setBlockList,hc.identity])

theorem Current.run (hc : Current r h) {blobs : List Bytes}
    (hok : ∀ blob ∈ blobs, ∃ m, r.read blob = .ok m) : Current r (h.setBlockLists blobs) := by
  induction blobs generalizing h with
  | nil => exact hc
  | cons blob blobs ih =>
    obtain ⟨m,hm⟩ := hok blob mem_cons_self
    exact ih (hc.obeys hm).1 fun b hb => hok b (mem_cons_of_mem blob hb)

/-- Every call of a sequence obeys, from a new handler with an identity, if and only if every blob
of the sequence can be read. -/
theorem setBlockList_obeys_iff (r : BlockListReader) (blobs : List Bytes) :
    (∀ before blob after, blobs = before ++ blob::after →
      Obeys r (setBlockLists { identity := some r } before) blob) ↔
    ∀ blob ∈ blobs, ∃ m, r.read blob = .ok m := by
  have hstart : Current r { identity := some r } := ⟨rfl,rfl⟩
  constructor
  · intro hobeys
    induction blobs using List.reverseRecOn with
    | nil => simp
    | append_singleton blobs blob ih =>
      have hbefore := ih fun before b after heq =>
        hobeys before b (after ++ [blob]) (by rw [heq,append_assoc,cons_append])
      intro b hb
      rcases mem_append.mp hb with hb | hb
      · exact hbefore b hb
      · cases mem_singleton.mp hb
        cases hread : r.read blob with
        | ok m => exact ⟨m,rfl⟩
        | error err =>
          exact absurd (hobeys blobs blob [] rfl) ((hstart.run hbefore).not_obeys hread)
  · rintro hok before blob after rfl
    obtain ⟨m,hm⟩ := hok blob (by simp)
    exact ((hstart.run fun b hb => hok b (by simp [hb])).obeys hm).2

/-- A blob that cannot be decrypted is refused once; the repeated call returns nil. -/
theorem setBlockList_forgets_failure :
    let r : BlockListReader :=
      ⟨fun _ => .error "no identity matched",.ok,fun _ => .ok [],fun _ => .ok [],fun _ => .ok ""⟩
    let h : ProposalHandler := { identity := some r }
    (h.setBlockList [1]).2 = some "no identity matched" ∧
      ((h.setBlockList [1]).1.setBlockList [1]).2 = none :=
  ⟨rfl,rfl⟩

end ProposalHandler

/-- An authorisation of EIP-7702; the authority is recovered from the signature. -/
structure Authorization where
  authority : Except String Address
  address : Address

structure EthTx where
  toAddr : Option Address
  setCodeAuthorizations : List Authorization := []

inductive TxMsg
  | ethereumTx (tx : EthTx)
  | other

/-- A decoded transaction. There are no signers if it is not a `SigVerifiableTx`. -/
structure AppTx where
  getSigners : Option (Except String (List Bytes))
  getMsgs : List TxMsg

inductive TxError
  | decode (err : String)
  | notSigVerifiable
  | signers (err : String)
  | invalidAddress (addr : Bytes) (err : String)
  | signerBlocked (encoded : String)
  | destinationBlocked (encoded : String)
  | authorityBlocked (addr : Address)
  | authorisationBlocked (encoded : String)

/-- The decoder and the address codec of the application. The codec writes every address in the
form of `AccAddress.String`. -/
structure AppCodec where
  txDecoder : Bytes → Except String AppTx
  bytesToString : Bytes → Except String String
  accAddressString : Bytes → String
  encodes : ∀ addr, bytesToString addr = .ok (accAddressString addr)

namespace AppCodec
variable (c : AppCodec) (blocklist : Finset String)

def checkAddress (blocked : String → TxError) (addr : Bytes) : Option TxError :=
  match c.bytesToString addr with
  | .error err => some (.invalidAddress addr err)
  | .ok encoded => if encoded ∈ blocklist then some (blocked encoded) else none

/-- An authority that cannot be recovered is not checked. -/
def checkAuthority : Except String Address → Option TxError
  | .ok addr =>
    if c.accAddressString addr.bytes ∈ blocklist then some (.authorityBlocked addr) else none
  | .error _ => none

def checkAuthorization (auth : Authorization) : Option TxError :=
  (c.checkAuthority blocklist auth.authority).or
    (c.checkAddress blocklist .authorisationBlocked auth.address.bytes)

def checkMsg : TxMsg → Option TxError
  | .ethereumTx tx =>
    (tx.toAddr.bind fun addr => c.checkAddress blocklist .destinationBlocked addr.bytes).or
      (tx.setCodeAuthorizations.findSome? (c.checkAuthorization blocklist))
  | .other => none

/-- `ValidateTransaction`; the transaction is decoded if it is not given. -/
def validateTransaction (tx : Option AppTx) (txBz : Bytes) : Option TxError :=
  if blocklist.card = 0 then none
  else
    match (match tx with | none => c.txDecoder txBz | some tx => .ok tx) with
    | .error err => some (.decode err)
    | .ok tx =>
      match tx.getSigners with
      | none => some .notSigVerifiable
      | some (.error err) => some (.signers err)
      | some (.ok signers) =>
        (signers.findSome? (c.checkAddress blocklist .signerBlocked)).or
          (tx.getMsgs.findSome? (c.checkMsg blocklist))

def processProposal (txs : List Bytes) : Bool :=
  if blocklist.card = 0 then true
  else txs.all fun txBz => (c.validateTransaction blocklist none txBz).isNone

end AppCodec

/-- The first pass of `SelectTxForProposalFast`: the positions of invalid transactions. -/
def invalidTxs (valid : Bytes → Bool) : ℕ → List Bytes → List ℕ
  | _,[] => []
  | i,txBz::txs => if valid txBz then invalidTxs valid (i+1) txs else i::invalidTxs valid (i+1) txs

def filterTxs : List ℕ → ℕ → List Bytes → List Bytes
  | _,_,[] => []
  | [],i,txBz::txs => txBz::filterTxs [] (i+1) txs
  | j::js,i,txBz::txs =>
    if i = j then filterTxs js (i+1) txs else txBz::filterTxs (j::js) (i+1) txs

/-- What `SelectTxForProposalFast` passes on to the selector it extends. -/
def selectTxForProposalFast (valid : Bytes → Bool) (txs : List Bytes) : List Bytes :=
  let invalid := invalidTxs valid 0 txs
  if 0 < invalid.length then filterTxs invalid 0 txs else txs

theorem le_of_mem_invalidTxs {valid : Bytes → Bool} {i j : ℕ} {txs : List Bytes}
    (hj : j ∈ invalidTxs valid i txs) : i ≤ j := by
  induction txs generalizing i with
  | nil => cases hj
  | cons txBz txs ih =>
    rw [invalidTxs] at hj
    split at hj
    · exact Nat.le_of_succ_le (ih hj)
    · rcases mem_cons.mp hj with rfl | hj
      · exact le_rfl
      · exact Nat.le_of_succ_le (ih hj)

/-- The two passes together are a filter. -/
theorem filterTxs_invalidTxs (valid : Bytes → Bool) (i : ℕ) (txs : List Bytes) :
    filterTxs (invalidTxs valid i txs) i txs = txs.filter valid := by
  induction txs generalizing i with
  | nil => cases invalidTxs valid i [] <;> rfl
  | cons txBz txs ih =>
    rw [invalidTxs]
    split
    · rename_i hvalid
      rw [filter_cons_of_pos hvalid,← ih (i+1)]
      cases hjs : invalidTxs valid (i+1) txs with
      | nil => rfl
      | cons j js =>
        -- The next invalid position is behind this one.
        have hlt : i < j := le_of_mem_invalidTxs (hjs ▸ mem_cons_self)
        rw [filterTxs,if_neg hlt.ne]
    · rename_i hvalid
      rw [filter_cons_of_neg hvalid,filterTxs,if_pos rfl,ih]

theorem filterTxs_nil (i : ℕ) (txs : List Bytes) : filterTxs [] i txs = txs := by
  induction txs generalizing i with
  | nil => rfl
  | cons txBz txs ih => rw [filterTxs,ih]

theorem selectTxForProposalFast_eq (valid : Bytes → Bool) (txs : List Bytes) :
    selectTxForProposalFast valid txs = txs.filter valid := by
  rw [selectTxForProposalFast,← filterTxs_invalidTxs valid 0]
  split
  · rfl
  · rename_i hnone
    have hnil : invalidTxs valid 0 txs = [] := by simpa using hnone
    rw [hnil,filterTxs_nil]

namespace AppCodec
variable (c : AppCodec) (blocklist : Finset String)

/-- The account is on the block list. -/
def Blocked (addr : Bytes) : Prop := c.accAddressString addr ∈ blocklist

/-- No blocked account is the destination of a message or in its authorisation list. -/
def MsgAllowed : TxMsg → Prop
  | .ethereumTx tx => (∀ addr ∈ tx.toAddr, ¬c.Blocked blocklist addr.bytes) ∧
      ∀ auth ∈ tx.setCodeAuthorizations,
        (∀ addr, auth.authority = .ok addr → ¬c.Blocked blocklist addr.bytes) ∧
          ¬c.Blocked blocklist auth.address.bytes
  | .other => True

/-- A transaction that decodes, whose signers can be read, and that no blocked account takes part
in. -/
def Allowed (txBz : Bytes) : Prop :=
  ∃ tx signers, c.txDecoder txBz = .ok tx ∧ tx.getSigners = some (.ok signers) ∧
    (∀ signer ∈ signers, ¬c.Blocked blocklist signer) ∧
    ∀ msg ∈ tx.getMsgs, c.MsgAllowed blocklist msg

theorem checkAddress_eq_none {blocked : String → TxError} {addr : Bytes} :
    c.checkAddress blocklist blocked addr = none ↔ ¬c.Blocked blocklist addr := by
  simp [checkAddress,c.encodes,Blocked]

theorem checkAuthorization_eq_none {auth : Authorization} :
    c.checkAuthorization blocklist auth = none ↔
      (∀ addr, auth.authority = .ok addr → ¬c.Blocked blocklist addr.bytes) ∧
        ¬c.Blocked blocklist auth.address.bytes := by
  rw [checkAuthorization,or_eq_none_iff,checkAddress_eq_none]
  cases auth.authority with
  | error err => simp [checkAuthority]
  | ok addr => simp [checkAuthority,Blocked]

theorem checkMsg_eq_none {msg : TxMsg} :
    c.checkMsg blocklist msg = none ↔ c.MsgAllowed blocklist msg := by
  cases msg with
  | other => exact iff_of_true rfl trivial
  | ethereumTx tx =>
    rw [checkMsg,or_eq_none_iff,findSome?_eq_none_iff,MsgAllowed,
      bind_eq_none_iff]
    simp only [checkAddress_eq_none,checkAuthorization_eq_none,mem_def]

variable {blocklist}

theorem validateTransaction_eq_none (hne : blocklist.Nonempty) {txBz : Bytes} :
    c.validateTransaction blocklist none txBz = none ↔ c.Allowed blocklist txBz := by
  rw [validateTransaction,if_neg hne.card_ne_zero,Allowed]
  cases hdecode : c.txDecoder txBz with
  | error err => simp
  | ok tx =>
    obtain ⟨signers,msgs⟩ := tx
    rcases signers with _ | err | signers
    · simp
    · simp
    · simp [findSome?_eq_none_iff,checkAddress_eq_none,checkMsg_eq_none]

theorem processProposal_iff (hne : blocklist.Nonempty) {txs : List Bytes} :
    c.processProposal blocklist txs = true ↔ ∀ txBz ∈ txs, c.Allowed blocklist txBz := by
  rw [processProposal,if_neg hne.card_ne_zero,List.all_eq_true]
  simp only [isNone_iff_eq_none,c.validateTransaction_eq_none hne]

/-- The transactions that are passed on to build a proposal. -/
def passedOn (c : AppCodec) (blocklist : Finset String) (txs : List Bytes) : List Bytes :=
  selectTxForProposalFast (fun txBz => (c.validateTransaction blocklist none txBz).isNone) txs

open Classical in
/-- With a block list that is not empty, those transactions are passed on, in their order, that
decode, with signers that can be read, and that no blocked account takes part in, and a proposal is accepted if and only if all its
transactions are of this kind. Whatever the block list, parts of what is passed on are accepted. -/
theorem proposals_agree (c : AppCodec) (blocklist : Finset String) (txs : List Bytes) :
    (blocklist.Nonempty →
      c.passedOn blocklist txs = txs.filter (fun txBz => c.Allowed blocklist txBz) ∧
      ∀ proposal, c.processProposal blocklist proposal = true ↔
        ∀ txBz ∈ proposal, c.Allowed blocklist txBz) ∧
    ∀ proposal, proposal.Sublist (c.passedOn blocklist txs) →
      c.processProposal blocklist proposal = true := by
  refine ⟨fun hne => ⟨?_,fun proposal => c.processProposal_iff hne⟩,fun proposal hsub => ?_⟩
  · rw [passedOn,selectTxForProposalFast_eq]
    refine List.filter_congr fun txBz _ => ?_
    rw [Bool.eq_iff_iff,isNone_iff_eq_none,c.validateTransaction_eq_none hne,
      decide_eq_true_iff]
  · rw [passedOn,selectTxForProposalFast_eq] at hsub
    rw [processProposal]
    split
    · rfl
    · rw [List.all_eq_true]
      exact fun txBz hmem => (mem_filter.mp (hsub.subset hmem)).2

namespace Sample

def utf8 (s : String) : Bytes := s.toUTF8.data.toList

/-- A field of a message, shorter than 128 bytes. -/
def field (tag : UInt8) (body : Bytes) : Bytes := tag::.ofNat body.length::body

/-- The bytes of a `TxRaw` with a `MsgSend` from this sender and a fee. -/
def sendTx (sender : String) : Bytes :=
  field 10 (field 10 (field 10 (utf8 "/cosmos.bank.v1beta1.MsgSend") ++
    field 18 (field 10 (utf8 sender)))) ++ field 18 [18,2,16,1]

def alice : Bytes := List.replicate 20 1

def bob : Bytes := List.replicate 20 2

def text (addr : Bytes) : String :=
  if addr = alice then "genesis1qyqszqgpqyqszqgpqyqszqgpqyqszqgpv64gff"
  else if addr = bob then "genesis1qgpqyqszqgpqyqszqgpqyqszqgpqyqsza7ndzl" else ""

/-- Three transactions decode; the sender of one of them is no address. -/
def codec : AppCodec where
  txDecoder txBz :=
    if txBz = sendTx (text alice) then .ok ⟨some (.ok [alice]),[.other]⟩
    else if txBz = sendTx (text bob) then .ok ⟨some (.ok [bob]),[.other]⟩
    else if txBz = sendTx "" then
      .ok ⟨some (.error "empty address string is not allowed"),[.other]⟩
    else .error "tx parse error"
  bytesToString addr := .ok (text addr)
  accAddressString := text
  encodes _ := rfl

end Sample

open Sample in
/-- A transaction of a blocked sender, one that does not decode and one that is passed on. -/
theorem proposals_agree_three :
    codec.passedOn {text alice} [sendTx (text alice),[1],sendTx (text bob)] = [sendTx (text bob)] ∧
      codec.processProposal {text alice} [sendTx (text bob)] = true ∧
      ∀ txBz ∈ [sendTx (text bob)], codec.Allowed {text alice} txBz := by
  have hpassed : codec.passedOn {text alice} [sendTx (text alice),[1],sendTx (text bob)] =
      [sendTx (text bob)] := by decide +kernel
  obtain ⟨hagree,hsublists⟩ :=
    proposals_agree codec {text alice} [sendTx (text alice),[1],sendTx (text bob)]
  have haccepted := hsublists [sendTx (text bob)] (by rw [hpassed])
  exact ⟨hpassed,haccepted,((hagree (Finset.singleton_nonempty _)).2 _).mp haccepted⟩

open Sample in
/-- A transaction that decodes but whose signers cannot be read is neither passed on nor accepted,
though no blocked account takes part in it. -/
theorem unreadable_signers_refused : ∃ tx, codec.txDecoder (sendTx "") = .ok tx ∧
    (∀ signers, tx.getSigners = some (.ok signers) →
      ∀ signer ∈ signers, ¬codec.Blocked {text alice} signer) ∧
    (∀ msg ∈ tx.getMsgs, codec.MsgAllowed {text alice} msg) ∧
    codec.passedOn {text alice} [sendTx ""] = [] ∧
    codec.processProposal {text alice} [sendTx ""] = false := by
  have hdecode : codec.txDecoder (sendTx "") =
      .ok ⟨some (.error "empty address string is not allowed"),[.other]⟩ := by
    have halice : sendTx "" ≠ sendTx (text alice) := by decide +kernel
    have hbob : sendTx "" ≠ sendTx (text bob) := by decide +kernel
    simp [codec,halice,hbob]
  refine ⟨_,hdecode,by simp,?_,by decide +kernel,by decide +kernel⟩
  simp [MsgAllowed]

end AppCodec

end Cronos

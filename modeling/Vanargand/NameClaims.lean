import Vanargand.Attempts
import Vanargand.RecordCodes
import Vanargand.TestBackend

/-!
# Claims to a name

A commitment names its claimant under the hash, so nobody else can open it. But it is
stored under its digest alone, and whoever sees the digest can stake it first: then the
claimant's own commitment is refused, and its reveal finds a row that is not its. A
claim that is staked by its claimant cannot be interfered with.
-/

namespace Vanargand
open Fallible

/-- What a commitment to a name hashes. -/
def claimPreimage (name : Name) (salt : Salt) (account : AccountId) : Bytes :=
  toCanonicalBytes name ++ salt.bytes ++ account.asBytes

theorem name_eq_of_claimPreimage {name name' : Name} {salt salt' : Salt}
    {account account' : AccountId}
    (h : claimPreimage name salt account = claimPreimage name' salt' account') : name = name' := by
  rw [claimPreimage, claimPreimage, List.append_assoc, List.append_assoc] at h
  exact (prefixCode_name h).1

namespace Ledger

section
variable [Primitives] {l l' : Ledger} {c : Call} {ctx : BlockContext} {body : TxBody}

/-- What a call does to the book of names. -/
inductive Registers (l : Ledger) (c : Call) : NameBook → Prop
  | kept : (∀ body, c.body? = some body → body.kind.book ≠ some .names) → Registers l c l.names
  | committed {ctx : BlockContext} {body : TxBody} {commitment : Hash} {names : NameBook} :
      c = .apply ctx body → body.kind = .nameCommit commitment →
      l.names.commit commitment body.account ctx.finalizedHeight = .ok names → Registers l c names
  | revealed {ctx : BlockContext} {body : TxBody} {name : Name} {salt : Salt} {names : NameBook} :
      c = .apply ctx body → body.kind = .nameReveal name salt →
      l.names.reveal name salt body.account ctx.finalizedHeight = .ok names → Registers l c names
  | pruned {height : U64} : c = .pruneExpiredCommitments height →
      Registers l c (l.names.pruneExpired height).2

theorem registers_applyKind (h : l.applyKind ctx body = .ok l') :
    Registers l (.apply ctx body) l'.names := by
  by_cases hbook : body.kind.book = some .names
  · cases acts_applyKind h with
    | nameCommit hkind hcommit => exact .committed rfl hkind hcommit
    | nameReveal hkind hreveal => exact .revealed rfl hkind hreveal
    | transfer hk | nomadSet hk | deviceAdd hk | deviceRevoke hk | bond hk | unbond hk
    | purseOpen hk | purseCloseCooperative hk | purseCloseUnilateral hk | purseDispute hk
    | assetCreate hk | assetMint hk | assetBurn hk | guardianSet hk | recoveryStart hk
    | recoveryCancel hk | recoveryFinalise hk | accountEquivocation hk
    | validatorEquivocation hk =>
        rw [hk] at hbook
        cases hbook
  · have hwrites := writes_applyKind h
    have hsame : l'.names = l.names := by
      change l'.books.names = l.books.names
      generalize l'.books = b at hwrites ⊢
      cases hwrites with
      | named hnames => exact absurd hnames hbook
      | _ => rfl
    rw [hsame]
    refine .kept fun sent hsent => ?_
    obtain rfl : body = sent := Option.some.inj hsent
    exact hbook

theorem registers_call (h : l.call c = .ok l') : Registers l c l'.names := by
  cases c with
  | apply ctx body =>
      obtain ⟨applied, happly⟩ := call_apply_ok_iff.mp h
      obtain ⟨_, charged, acted, _, _, _, _, hcharged, hacted, hsettled, _⟩ :=
        apply_ok_iff.mp happly
      have hbefore : charged.names = l.names := congrArg Books.names (books_chargeFee hcharged)
      have hafter : l'.names = acted.names := congrArg Books.names (books_settleSender hsettled)
      have hregisters := registers_applyKind hacted
      rw [hafter]
      generalize acted.names = names at hregisters ⊢
      cases hregisters with
      | kept hbook => exact hbefore ▸ .kept hbook
      | committed hcall hkind hcommit => exact .committed hcall hkind (hbefore ▸ hcommit)
      | revealed hcall hkind hreveal => exact .revealed hcall hkind (hbefore ▸ hreveal)
      | pruned hcall => cases hcall
  | settleElapsedPurses height =>
      have hsame : l'.names = l.names := congrArg Books.names (books_settleElapsedPurses h)
      rw [hsame]
      exact .kept fun _ hbody => by cases hbody
  | pruneExpiredCommitments height =>
      obtain rfl := pure_ok_iff.mp h
      exact .pruned rfl
  | settleNomadCounters =>
      obtain rfl := pure_ok_iff.mp h
      exact .kept fun _ hbody => by cases hbody

/-- No call changes who owns a registered name. -/
theorem owner_call {name : Name} {owner : AccountId} (hl : l.names.owner name = some owner)
    (h : l.call c = .ok l') : l'.names.owner name = some owner := by
  have hregisters := registers_call h
  generalize l'.names = names at hregisters ⊢
  cases hregisters with
  | kept | pruned => exact hl
  | committed _ _ hcommit =>
      obtain ⟨_, rfl⟩ := NameBook.commit_ok_iff.mp hcommit
      exact hl
  | @revealed _ _ other _ _ _ _ hreveal =>
      obtain ⟨_, hfree, _, rfl⟩ := NameBook.reveal_ok_iff.mp hreveal
      have hne : other ≠ name := by
        rintro rfl
        rw [hfree] at hl
        cases hl
      exact (SortedMap.get?_insert_of_ne _ _ hne).trans hl

variable {g : Ledger} {trace : List (Ledger × Call)}

/-- Who owns a name owns it for ever. -/
theorem owner_run {name : Name} {owner : AccountId} (run : History g trace l)
    (hg : g.names.owner name = some owner) : l.names.owner name = some owner :=
  run.invariant (P := fun m => m.names.owner name = some owner) owner_call hg

/-- A call that cannot touch a claim: no pruning past a height, and no reveal that opens
its digest from another preimage. -/
def SparesClaim (digest : Hash) (preimage : Bytes) (height : U64) (c : Call) : Prop :=
  (∀ pruned, c = .pruneExpiredCommitments pruned → pruned ≤ height) ∧
  ∀ body name salt, c.body? = some body → body.kind = .nameReveal name salt →
    nameCommitment name salt body.account = digest →
      claimPreimage name salt body.account = preimage

/-- Once staked, a claim stays until the name is registered. -/
theorem staked_call {name : Name} {salt : Salt} {account : AccountId} {record : CommitmentRecord}
    {height : U64} (hheight : height ≤ record.deadline)
    (hspares : SparesClaim (nameCommitment name salt account) (claimPreimage name salt account)
      height c)
    (hl : (l.names.owner name).isSome = true ∨
      l.names.commitments.get? (nameCommitment name salt account) = some record)
    (h : l.call c = .ok l') : (l'.names.owner name).isSome = true ∨
      l'.names.commitments.get? (nameCommitment name salt account) = some record := by
  obtain howned | hstaked := hl
  · obtain ⟨owner, howner⟩ := Option.isSome_iff_exists.mp howned
    rw [owner_call howner h]
    exact .inl rfl
  have hregisters := registers_call h
  generalize l'.names = names at hregisters ⊢
  cases hregisters with
  | kept => exact .inr hstaked
  | @committed _ _ commitment _ _ _ hcommit =>
      obtain ⟨hfree, rfl⟩ := NameBook.commit_ok_iff.mp hcommit
      have hne : commitment ≠ nameCommitment name salt account := by
        rintro rfl
        rw [hfree] at hstaked
        cases hstaked
      exact .inr ((SortedMap.get?_insert_of_ne _ _ hne).trans hstaked)
  | @revealed _ body other salt' _ hcall hkind hreveal =>
      obtain ⟨_, _, _, rfl⟩ := NameBook.reveal_ok_iff.mp hreveal
      by_cases hsame : nameCommitment other salt' body.account = nameCommitment name salt account
      · subst hcall
        obtain rfl := name_eq_of_claimPreimage (hspares.2 body other salt' rfl hkind hsame)
        refine .inl ?_
        rw [NameBook.owner, SortedMap.get?_insert_self]
        rfl
      · exact .inr ((SortedMap.get?_erase_of_ne _ (Ne.symm hsame)).trans hstaked)
  | @pruned pruned hcall =>
      rw [NameBook.get?_pruneExpired, hstaked]
      have hle : pruned ≤ record.deadline := (hspares.1 pruned hcall).trans hheight
      refine .inr ?_
      simp [Option.filter, hle]

theorem commit_of_call {commitment : Hash} (hkind : body.kind = .nameCommit commitment)
    (h : l.call (.apply ctx body) = .ok l') :
    l.names.commit commitment body.account ctx.finalizedHeight = .ok l'.names := by
  have hregisters := registers_call h
  generalize l'.names = names at hregisters ⊢
  cases hregisters with
  | kept hbook => exact absurd (by rw [hkind]; rfl) (hbook body rfl)
  | committed hsent hsame hcommit =>
      cases hsent
      rw [hkind] at hsame
      cases hsame
      exact hcommit
  | revealed hsent hsame =>
      cases hsent
      rw [hkind] at hsame
      cases hsame
  | pruned hsent => cases hsent

theorem reveal_of_call {name : Name} {salt : Salt} (hkind : body.kind = .nameReveal name salt)
    (h : l.call (.apply ctx body) = .ok l') :
    l.names.reveal name salt body.account ctx.finalizedHeight = .ok l'.names := by
  have hregisters := registers_call h
  generalize l'.names = names at hregisters ⊢
  cases hregisters with
  | kept hbook => exact absurd (by rw [hkind]; rfl) (hbook body rfl)
  | committed hsent hsame =>
      cases hsent
      rw [hkind] at hsame
      cases hsame
  | revealed hsent hsame hreveal =>
      cases hsent
      rw [hkind] at hsame
      cases hsame
      exact hreveal
  | pruned hsent => cases hsent

/-- A kind that only rewrites the book of names is all that can refuse its body. -/
theorem exists_call_of_names (names : NameBook) (hvalid : l.OtherwiseValid ctx body)
    (hacts : ∀ charged : Ledger, charged.names = l.names →
      charged.applyKind ctx body = .ok { charged with names }) :
    ∃ l', l.call (.apply ctx body) = .ok l' := by
  obtain ⟨charged, hstages⟩ := hvalid
  have hnames : charged.names = l.names :=
    congrArg Books.names (books_chargeFee (charged_of_applyButKind hstages))
  obtain ⟨applied, l', happly⟩ := exists_apply_of_kept hstages (hacts charged hnames) rfl
  exact ⟨l', call_apply_ok_iff.mpr ⟨applied, happly⟩⟩

theorem exists_call_nameCommit {commitment : Hash} (hkind : body.kind = .nameCommit commitment)
    (hvalid : l.OtherwiseValid ctx body) (hfree : l.names.commitments.get? commitment = none) :
    ∃ l', l.call (.apply ctx body) = .ok l' := by
  obtain ⟨names, hcommit⟩ : ∃ names,
      l.names.commit commitment body.account ctx.finalizedHeight = .ok names :=
    ⟨_, NameBook.commit_ok_iff.mpr ⟨hfree, rfl⟩⟩
  refine exists_call_of_names names hvalid fun charged hnames => ?_
  simp only [applyKind, hkind, nameCommit, hnames, bind_ok_iff, mapError_ok_iff, pure_ok_iff]
  exact ⟨names, hcommit, rfl⟩

theorem exists_call_nameReveal {name : Name} {salt : Salt} {names : NameBook}
    (hkind : body.kind = .nameReveal name salt) (hvalid : l.OtherwiseValid ctx body)
    (hreveal : l.names.reveal name salt body.account ctx.finalizedHeight = .ok names) :
    ∃ l', l.call (.apply ctx body) = .ok l' := by
  refine exists_call_of_names names hvalid fun charged hnames => ?_
  simp only [applyKind, hkind, nameReveal, hnames, bind_ok_iff, mapError_ok_iff, pure_ok_iff]
  exact ⟨names, hreveal, rfl⟩

variable {between after : List (Ledger × Call)} {m : Ledger} {opening : BlockContext}
  {reveal : TxBody}

/-- Owners of names never change, and a claim that its owner stakes is as good as the name:
whatever anybody attempts before, between and after, the commitment and its reveal inside
the window are both accepted and the name stays with the claimant, exactly when the digest
is not staked when the claimant commits and nobody has the name when it reveals. -/
theorem claim_succeeds_iff {name : Name} {salt : Salt}
    (sends : Schedule l ((l, .apply ctx body) :: between ++ (m, .apply opening reveal) :: after) l')
    (hcommit : body.kind = .nameCommit (nameCommitment name salt body.account))
    (hreveal : reveal.kind = .nameReveal name salt) (haccount : reveal.account = body.account)
    (hpremium : name.isPremium = false) (hvalid : l.OtherwiseValid ctx body)
    (hvalid' : m.OtherwiseValid opening reveal)
    (hearly : ctx.finalizedHeight.val + minRevealDelayFinalizedBlocks ≤ opening.finalizedHeight.val)
    (hlate : opening.finalizedHeight.val ≤
      ctx.finalizedHeight.val + commitmentExpiryFinalizedBlocks)
    (hspares : ∀ step ∈ between, SparesClaim (nameCommitment name salt body.account)
      (claimPreimage name salt body.account) opening.finalizedHeight step.2) :
    (∀ other owner, l.names.owner other = some owner → l'.names.owner other = some owner) ∧
    ((∃ m', l.call (.apply ctx body) = .ok m') ∧ (∃ m', m.call (.apply opening reveal) = .ok m' ∧
        m'.names.owner name = some body.account) ∧ l'.names.owner name = some body.account ↔
      l.names.commitments.get? (nameCommitment name salt body.account) = none ∧
        m.names.owner name = none) := by
  refine ⟨fun other owner howner => owner_run sends.of_attempts howner, ?_⟩
  constructor
  · rintro ⟨⟨l₁, hcommitted⟩, ⟨m₁, hrevealed, _⟩, _⟩
    obtain ⟨hfree, _⟩ := NameBook.commit_ok_iff.mp (commit_of_call hcommit hcommitted)
    obtain ⟨_, hunowned, _⟩ := NameBook.reveal_ok_iff.mp (reveal_of_call hreveal hrevealed)
    exact ⟨hfree, hunowned⟩
  · rintro ⟨hfree, hunowned⟩
    obtain ⟨l₁, hcommitted⟩ := exists_call_nameCommit hcommit hvalid hfree
    obtain ⟨_, hl₁⟩ := NameBook.commit_ok_iff.mp (commit_of_call hcommit hcommitted)
    obtain ⟨t, first, second⟩ := Run.append_iff.mp sends
    obtain ⟨_, t', ht', first⟩ := Run.cons_iff.mp first
    obtain rfl : l₁ = t' := Except.ok.inj ((Run.attempt_of_ok hcommitted).symm.trans ht')
    obtain ⟨rfl, t'', ht'', second⟩ := Run.cons_iff.mp second
    have hopen : CommitmentRecord.earliest ⟨body.account, ctx.finalizedHeight⟩ ≤
        opening.finalizedHeight := U64.saturatingAdd_le hearly
    have hheight : opening.finalizedHeight ≤
        CommitmentRecord.deadline ⟨body.account, ctx.finalizedHeight⟩ :=
      U64.le_saturatingAdd_iff.mpr hlate
    -- the claim is staked from its commitment to its reveal
    have hstaked : m.names.commitments.get? (nameCommitment name salt body.account) =
        some ⟨body.account, ctx.finalizedHeight⟩ := by
      refine (first.of_attempts.invariant_of
        (fun hC hm hcall => staked_call hheight hC hm hcall)
        (fun step hstep => hspares step (Run.mem_accepted.mp hstep).1) (.inr ?_)).resolve_left ?_
      · rw [hl₁, SortedMap.get?_insert_self]
      · simp [hunowned]
    have hrevealed : ∃ names, m.names.reveal name salt reveal.account opening.finalizedHeight =
        .ok names := by
      refine ⟨_, NameBook.reveal_ok_iff.mpr ⟨hpremium, hunowned,
        ⟨⟨body.account, ctx.finalizedHeight⟩, haccount.symm, haccount ▸ hstaked, hopen, hheight⟩,
        rfl⟩⟩
    obtain ⟨names, hrevealed⟩ := hrevealed
    obtain ⟨m₁, hcall⟩ := exists_call_nameReveal hreveal hvalid' hrevealed
    obtain ⟨_, _, _, hm₁⟩ := NameBook.reveal_ok_iff.mp (reveal_of_call hreveal hcall)
    have howner : m₁.names.owner name = some body.account := by
      rw [hm₁, NameBook.owner, SortedMap.get?_insert_self, haccount]
    obtain rfl : m₁ = t'' := Except.ok.inj ((Run.attempt_of_ok hcall).symm.trans ht'')
    exact ⟨⟨l₁, hcommitted⟩, ⟨m₁, hcall, howner⟩, owner_run second.of_attempts howner⟩

end

namespace Claimed
open TestBuild

local instance : Primitives := testPrimitives

def lighthouse : Name := ⟨"lighthouse", by decide⟩

/-- The digest of the owner's claim. -/
def digest : Hash := nameCommitment lighthouse .zero owner

def commits (seed : Hash) : TxBody := body seed 0 (.nameCommit digest)

/-- The owner reveals the name in its lane's given place. -/
def reveals (sequence : U64) : TxBody := body .zero sequence (.nameReveal lighthouse .zero)

/-- The first context in which a commitment of the first context can be revealed. -/
def settled : BlockContext := { context .chain with finalizedHeight := 10 }

/-- Whoever sees the owner's digest stakes it first, and the owner's commitment and its
reveal are both refused. -/
theorem digest_stolen : ∃ m m' l, Schedule guarded
      [(guarded, .apply (context .chain) (commits guardian)),
        (m, .apply (context .chain) (commits .zero)), (m', .apply settled (reveals 0))] l ∧
    m.OtherwiseValid (context .chain) (commits .zero) ∧ m'.OtherwiseValid settled (reveals 0) ∧
    lighthouse.isPremium = false ∧ m'.names.owner lighthouse = none ∧
    m.call (.apply (context .chain) (commits .zero)) = .error (.name .commitmentExists) ∧
    m'.call (.apply settled (reveals 0)) = .error (.name .noSuchCommitment) := by
  obtain ⟨trace, l, sends, hlabels, htest⟩ := Run.exists_of_replay (Run.attempt call) guarded
    [.apply (context .chain) (commits guardian), .apply (context .chain) (commits .zero),
      .apply settled (reveals 0)]
    (fun trace _ =>
      (trace.tail.head?.all fun step => step.1.OtherwiseValid (context .chain) (commits .zero) ∧
        step.1.call step.2 = .error (.name .commitmentExists)) ∧
      trace.getLast?.all fun step => step.1.OtherwiseValid settled (reveals 0) ∧
        step.1.names.owner lighthouse = none ∧
        step.1.call step.2 = .error (.name .noSuchCommitment))
    (by decide +kernel)
  obtain ⟨m, m', rfl⟩ := sends.of_three_labels hlabels
  obtain ⟨hfirst, hlast⟩ := of_decide_eq_true htest
  obtain ⟨hcommit, hexists⟩ := of_decide_eq_true hfirst
  obtain ⟨hreveal, howner, hmissing⟩ := of_decide_eq_true hlast
  exact ⟨_, _, l, sends, hcommit, hreveal, by decide +kernel, howner, hexists, hmissing⟩

/-- An owner that stakes its digest first registers the name, though the digest is staked
again and the commitments are pruned before it reveals. -/
theorem owner_registers : ∃ m m' m'' l, Schedule guarded
      [(guarded, .apply (context .chain) (commits .zero)),
        (m, .apply (context .chain) (commits guardian)), (m', .pruneExpiredCommitments 10),
        (m'', .apply settled (reveals 1))] l ∧ l.names.owner lighthouse = some owner := by
  obtain ⟨trace, l, sends, hlabels, htest⟩ := Run.exists_of_replay (Run.attempt call) guarded
    [.apply (context .chain) (commits .zero), .apply (context .chain) (commits guardian),
      .pruneExpiredCommitments 10, .apply settled (reveals 1)]
    (fun trace _ => trace.getLast?.all fun step =>
      step.1.OtherwiseValid settled (reveals 1) ∧ step.1.names.owner lighthouse = none)
    (by decide +kernel)
  have hall := sends
  obtain ⟨m, later, rfl, _, run, hlabels⟩ := sends.of_labels_cons hlabels
  obtain ⟨m', m'', rfl⟩ := run.of_three_labels hlabels
  obtain ⟨hvalid, hunowned⟩ := of_decide_eq_true htest
  have hsplit : Schedule guarded ((guarded, .apply (context .chain) (commits .zero)) ::
      [(m, .apply (context .chain) (commits guardian)), (m', .pruneExpiredCommitments 10)] ++
      (m'', .apply settled (reveals 1)) :: []) l := hall
  have hspares : ∀ step ∈ [(m, Call.apply (context .chain) (commits guardian)),
      (m', .pruneExpiredCommitments 10)], SparesClaim digest
        (claimPreimage lighthouse .zero owner) settled.finalizedHeight step.2 := by
    simp only [List.forall_mem_cons, List.not_mem_nil, false_implies, implies_true, and_true]
    constructor
    · constructor
      · intro pruned hcall
        cases hcall
      · intro sent _ _ hsent hkind
        obtain rfl : commits guardian = sent := Option.some.inj hsent
        cases hkind
    · constructor
      · intro pruned hcall
        cases hcall
        exact le_rfl
      · intro _ _ _ hsent
        cases hsent
  obtain ⟨_, hclaim⟩ := claim_succeeds_iff hsplit rfl rfl rfl (by decide +kernel)
    (by decide +kernel) hvalid (by decide) (by decide) hspares
  exact ⟨m, m', m'', l, hall, (hclaim.mpr ⟨by decide +kernel, hunowned⟩).2.2⟩

end Claimed

end Ledger

end Vanargand

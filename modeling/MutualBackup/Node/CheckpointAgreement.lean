import MutualBackup.Core.CheckpointValidity
import MutualBackup.Node.Transition
import MutualBackup.Store.SignatureLock

/-!
# Checkpoint agreement

Nodes sign and store checkpoints, each on its own control store and in any order.  No node signs
two checkpoints of one generation, so two certificates of one generation that share a node running
this code are certificates of the same checkpoint.

The argument has three parts.  The rows of a guild are a vote slot, and a call of the node is a move
of it, so the slot stays sound (`NodeStep.move`).  In a sound slot the last accepted checkpoint is
the lock whenever there is one, and the transition check lets through only that checkpoint and its
successors; a call therefore writes a lock only over one it extends (`NodeStep.lock`).  A vote made
that way is a pledge, and pledges are kept (`VoteSlot.Pledged.of_extends`).

The store alone does not keep the lock: a replay of the head behind the lock forgets a vote.  Here
the transition check refuses the replay before the store sees it.

The same check refuses more than that.  A node whose vote has lost cannot store the checkpoint that
won (`losing_vote_accepted_iff`).
-/

namespace MutualBackup

open Framework ControlStore NodeView

variable {C : Crypto} {view : NodeView} {db db' : ControlStore} {c : GuildCheckpoint}

/-! ## What the transition check lets through -/

/-- Success after an accepted checkpoint: the same one, or its successor. -/
lemma NodeView.of_validateAfter {row : CheckpointRow} {isBody historicalCatchup : Bool}
    (h : view.validateAfter C db row isBody c historicalCatchup = .ok ()) :
    (row.generation = c.generation ∧ c.hash C = .ok row.hash) ∨
      succeeds row c.generation c.parent := by
  obtain ⟨same, hsame, h⟩ := bind_eq_ok.mp h
  have hsame := mapErr_eq_ok.mp hsame
  cases same with
  | false =>
    obtain ⟨_, hnext, -⟩ := bind_eq_ok.mp h
    exact .inr (not_not.mp (reject_eq_ok.mp hnext))
  | true =>
    rw [CheckpointRow.isOf] at hsame
    split at hsame
    · rename_i hgen
      obtain ⟨hash, hhash, heq⟩ := map_eq_ok.mp hsame
      exact .inl ⟨hgen, by rw [hhash, of_decide_eq_true heq]⟩
    · exact absurd (pure_eq_ok.mp hsame) Bool.false_ne_true

variable {guildId : Bytes 32}

/-- In a sound slot the last accepted checkpoint is the lock. -/
lemma ControlStore.lastAccepted_of_lock {lock : CheckpointRow} (hs : (db.slot guildId).Sound)
    (hlock : db.locks guildId = some lock) : db.lastAccepted guildId = some (lock, true) := by
  rw [lastAccepted, hlock]
  cases hhead : db.heads guildId with
  | none => rfl
  | some head =>
    have hle : head.generation.val ≤ lock.generation.val := by
      have hahead := hs.head_le (mem_slot_lock.mpr ⟨lock, hlock, rfl⟩)
        (mem_slot_head.mpr ⟨head, hhead, rfl⟩)
      rcases hahead with heq | hnext
      · exact (congrArg Ballot.generation heq).ge
      · exact (Nat.le_succ _).trans hnext.ge
    exact if_pos hle

/-- What passes the transition check is the lock or its successor. -/
lemma NodeView.extends_of_validate {historicalCatchup : Bool} {hash : Bytes 32}
    (hs : (db.slot c.guildId).Sound)
    (h : view.validateCheckpointTransition C db c historicalCatchup = .ok ())
    (hhash : c.hash C = .ok hash) :
    (db.slot c.guildId).Extends ⟨c.generation.val, hash⟩ := by
  intro k hk
  obtain ⟨lock, hlock, rfl⟩ := mem_slot_lock.mp hk
  rw [validateCheckpointTransition, lastAccepted_of_lock hs hlock] at h
  rcases of_validateAfter h with ⟨hgen, hsame⟩ | ⟨hnext, -⟩
  · left
    have heq : hash = lock.hash := Except.ok.inj (hhash.symm.trans hsame)
    rw [heq, ← hgen]
    rfl
  · right
    exact U64.checkedSucc_eq_some.mp hnext

/-! ## Calls -/

/-- A lock taken for a signature. -/
lemma NodeView.lockForSignature_spec (h : view.lockForSignature C db c = .ok db') :
    ∃ hash body, c.hash C = .ok hash ∧ view.validateCheckpointTransition C db c false = .ok () ∧
      ControlStore.VoteSpec c.guildId ⟨c.generation, hash, body⟩ db db' := by
  rw [lockForSignature] at h
  simp only [bind_eq_ok, mapErr_eq_ok, exists_unit] at h
  obtain ⟨-, -, -, -, _, -, _, -, -, htransition, -, hash, hhash, body, -, hlock⟩ := h
  exact ⟨hash, body, hhash, htransition, lockCheckpointSignature_spec hlock⟩

lemma NodeView.commitOf_spec {q : QuorumCheckpoint} {commit : ControlStore.Commit}
    (h : commitOf C q = .ok commit) :
    q.checkpoint.hash C = .ok commit.hash ∧ commit.guildId = q.checkpoint.guildId ∧
      commit.generation = q.checkpoint.generation ∧ commit.parent = q.checkpoint.parent := by
  rw [commitOf] at h
  simp only [bind_eq_ok, pure_eq_ok] at h
  obtain ⟨hash, hhash, body, -, certificate, -, rfl⟩ := h
  exact ⟨hhash, rfl, rfl, rfl⟩

/-- A certified checkpoint committed. -/
lemma NodeView.commitCertified_spec {q : QuorumCheckpoint}
    {requireCurrentAuthority historicalCoverage : Bool}
    (h : view.commitCertified C db q requireCurrentAuthority historicalCoverage = .ok db') :
    ∃ commit, commitOf C q = .ok commit ∧
      view.validateCheckpointTransition C db q.checkpoint historicalCoverage = .ok () ∧
      ControlStore.DecisionSpec commit db db' := by
  rw [commitCertified] at h
  simp only [bind_eq_ok, mapErr_eq_ok, exists_unit] at h
  obtain ⟨-, -, -, htransition, commit, hcommit, epoch, -, hstore⟩ := h
  exact ⟨commit, hcommit, htransition, (commitCheckpointWithLegacyEpoch_spec hstore).1⟩

/-- What a call of a node can do to its store. -/
structure NodeStep (db db' : ControlStore) : Prop where
  /-- The rows of every guild move as a vote slot. -/
  move : ∀ guildId, (db.slot guildId).Move (db'.slot guildId)
  /-- A sound lock is replaced only by a ballot that extends it. -/
  lock : ∀ guildId, (db.slot guildId).Sound → (db'.slot guildId).lock = (db.slot guildId).lock ∨
    ∃ b, (db'.slot guildId).lock = some b ∧ (db.slot guildId).Extends b
  /-- The generation index loses and changes nothing. -/
  index : ∀ id bytes, db.records .guildCheckpointGeneration id = some bytes →
    db'.records .guildCheckpointGeneration id = some bytes

lemma NodeStep.refl (db : ControlStore) : NodeStep db db :=
  ⟨fun _ => .stay, fun _ _ => .inl rfl, fun _ _ h => h⟩

/-- A write to the rows of one guild that passed the transition check. -/
lemma NodeStep.of_writes {row : CheckpointRow} {head : Option CheckpointRow}
    (hmove : ∀ other, (db.slot other).Move (db'.slot other))
    (hwrites : ControlStore.Writes guildId (some row) head db db')
    (hextends : (db.slot guildId).Sound → (db.slot guildId).Extends row.ballot) :
    NodeStep db db' := by
  refine ⟨hmove, fun other hs => ?_, hwrites.index⟩
  by_cases hne : other = guildId
  · subst hne
    exact .inr ⟨row.ballot, by rw [hwrites.slot_eq]; rfl, hextends hs⟩
  · exact .inl (by rw [hwrites.slot_of_ne hne])

/-- A call on a node: the checkpoint, and what the call consults. -/
inductive NodeCall where
  | sign (view : NodeView) (c : GuildCheckpoint)
  | store (view : NodeView) (q : QuorumCheckpoint)
      (requireCurrentAuthority historicalCoverage : Bool)

/-- The store after a call, successful or not. -/
def NodeCall.next (C : Crypto) (db : ControlStore) : NodeCall → ControlStore
  | sign view c => (view.signCheckpoint C db c).1
  | store view q requireCurrentAuthority historicalCoverage =>
    (view.storeCheckpointWithAuthority C db q requireCurrentAuthority historicalCoverage).1

/-- Every call is a step. -/
lemma NodeCall.step (C : Crypto) (db : ControlStore) (call : NodeCall) :
    NodeStep db (call.next C db) := by
  cases call with
  | sign view c =>
    rw [next, NodeView.signCheckpoint]
    cases h : view.lockForSignature C db c with
    | error e => exact .refl db
    | ok db' =>
      obtain ⟨hash, body, hhash, htransition, hspec⟩ := lockForSignature_spec h
      exact .of_writes hspec.move hspec.writes fun hs =>
        extends_of_validate hs htransition hhash
  | store view q requireCurrentAuthority historicalCoverage =>
    rw [next, NodeView.storeCheckpointWithAuthority]
    cases h : view.commitCertified C db q requireCurrentAuthority historicalCoverage with
    | error e => exact .refl db
    | ok db' =>
      obtain ⟨commit, hcommit, htransition, hspec⟩ := commitCertified_spec h
      obtain ⟨hhash, hguild, hgen, -⟩ := commitOf_spec hcommit
      refine .of_writes hspec.move hspec.writes fun hs => ?_
      rw [hguild] at hs ⊢
      have hextends := extends_of_validate hs htransition hhash
      rw [← hgen] at hextends
      exact hextends

/-! ## Runs -/

/-- The stores of all nodes after a sequence of calls, each on one node, from empty stores. -/
def storesAfter (C : Crypto) (calls : List (NodeId × NodeCall)) : NodeId → ControlStore :=
  calls.foldl (fun stores call =>
    Function.update stores call.1 (call.2.next C (stores call.1))) fun _ => .empty

lemma storesAfter_append (calls calls' : List (NodeId × NodeCall)) :
    storesAfter C (calls ++ calls') = calls'.foldl (fun stores call =>
      Function.update stores call.1 (call.2.next C (stores call.1))) (storesAfter C calls) :=
  List.foldl_append

variable {before : List (NodeId × NodeCall)} {n : NodeId}

/-- A property of one node's store that every step keeps holds to the end of a run. -/
lemma storesAfter_invariant {P : ControlStore → Prop}
    (hstep : ∀ db db', NodeStep db db' → P db → P db') (h : P (storesAfter C before n))
    (between : List (NodeId × NodeCall)) : P (storesAfter C (before ++ between) n) := by
  rw [storesAfter_append]
  refine foldl_invariant (P := fun stores : NodeId → ControlStore => P (stores n))
    (Q := fun _ _ => True) ?_ h fun _ _ _ _ => trivial
  intro stores call hP _
  by_cases hn : n = call.1
  · subst hn
    rw [Function.update_self]
    exact hstep _ _ (call.2.step C _) hP
  · rw [Function.update_of_ne hn]
    exact hP

lemma sound_storesAfter (calls : List (NodeId × NodeCall)) (n : NodeId) (guildId : Bytes 32) :
    ((storesAfter C calls n).slot guildId).Sound := by
  have hempty : ((storesAfter C [] n).slot guildId).Sound := VoteSlot.sound_empty
  have hrun := storesAfter_invariant (P := fun db : ControlStore => (db.slot guildId).Sound)
    (fun _ _ hstep hs => hs.of_move (hstep.move guildId)) hempty calls
  rwa [List.nil_append] at hrun

/-- The node returned the signature for the checkpoint during the run. -/
def Issued (C : Crypto) (calls : List (NodeId × NodeCall)) (n : NodeId) (c : GuildCheckpoint)
    (signature : MemberSignature) : Prop :=
  ∃ before view rest, calls = before ++ (n, .sign view c) :: rest ∧
    (view.signCheckpoint C (storesAfter C before n) c).2 = .ok signature

/-- A certificate that verifies, whose signatures by nodes that run this code were returned by
them: no one else can make them. -/
structure Certified (C : Crypto) (runsCode : Set NodeId) (calls : List (NodeId × NodeCall))
    (q : QuorumCheckpoint) : Prop where
  verified : q.verify C = .ok ()
  issued : ∀ signature ∈ q.signatures, signature.signer ∈ runsCode →
    Issued C calls signature.signer q.checkpoint signature

/-- The quorums of two certificates share a node that runs this code. -/
def SharesHonest (runsCode : Set NodeId) (q q' : QuorumCheckpoint) : Prop :=
  ∃ n ∈ runsCode, n ∈ q.signatures.map MemberSignature.signer ∧
    n ∈ q'.signatures.map MemberSignature.signer

/-- **What the nodes agree on**, over a whole run. -/
structure CheckpointAgreement (C : Crypto) (calls : List (NodeId × NodeCall)) : Prop where
  /-- A node signs one checkpoint of a generation. -/
  oneVote : ∀ n c d signature signature', Issued C calls n c signature →
    Issued C calls n d signature' → c.guildId = d.guildId → c.generation = d.generation →
    c.hash C = d.hash C
  /-- One checkpoint of a generation is certified; when the digest does not collide on the two
  encodings, the encodings are the same. -/
  certifiedUnique : ∀ runsCode q q', Certified C runsCode calls q → Certified C runsCode calls q' →
    SharesHonest runsCode q q' → q.checkpoint.guildId = q'.checkpoint.guildId →
    q.checkpoint.generation = q'.checkpoint.generation →
    q.hash C = q'.hash C ∧ ∀ bytes bytes',
      canonicalBytes GuildCheckpoint.codec q.checkpoint = .ok bytes →
      canonicalBytes GuildCheckpoint.codec q'.checkpoint = .ok bytes' →
      (C.blake3 bytes = C.blake3 bytes' → bytes = bytes') → bytes = bytes'
  /-- The head of a store never goes back. -/
  headMonotone : ∀ before between rest, calls = before ++ between ++ rest → ∀ n guildId,
    ∀ head ∈ (storesAfter C before n).heads guildId,
      ∃ later ∈ (storesAfter C (before ++ between) n).heads guildId,
        head.generation ≤ later.generation
  /-- The generation index of a store never changes an entry. -/
  indexKept : ∀ before between rest, calls = before ++ between ++ rest → ∀ n id bytes,
    (storesAfter C before n).records .guildCheckpointGeneration id = some bytes →
    (storesAfter C (before ++ between) n).records .guildCheckpointGeneration id = some bytes

variable {signature : MemberSignature}

/-- A signature that was returned has locked its checkpoint. -/
lemma lock_of_sign (h : (view.signCheckpoint C (storesAfter C before n) c).2 = .ok signature) :
    ∃ hash, c.hash C = .ok hash ∧ (⟨c.generation.val, hash⟩ : Ballot (Bytes 32)) ∈
      ((storesAfter C (before ++ [(n, .sign view c)]) n).slot c.guildId).lock := by
  obtain ⟨db', hlocked, -⟩ := bind_eq_ok.mp h
  obtain ⟨hash, body, hhash, -, hspec⟩ := lockForSignature_spec hlocked
  have hnext : storesAfter C (before ++ [(n, .sign view c)]) n = db' := by
    rw [storesAfter_append, List.foldl_cons, List.foldl_nil, Function.update_self]
    show (assign _ (view.lockForSignature C _ c)).1 = db'
    rw [hlocked, assign]
  refine ⟨hash, hhash, ?_⟩
  rw [hnext, hspec.writes.slot_eq]
  rfl

/-- A lock is a pledge, and the pledge holds ever after. -/
lemma pledged_of_lock {b : Ballot (Bytes 32)} (h : b ∈ ((storesAfter C before n).slot guildId).lock)
    (between : List (NodeId × NodeCall)) :
    VoteSlot.Pledged b ((storesAfter C (before ++ between) n).slot guildId) := by
  -- soundness is carried along: it is what makes every later lock extend the one before
  have hrun := storesAfter_invariant
    (P := fun db : ControlStore => (db.slot guildId).Sound ∧ VoteSlot.Pledged b (db.slot guildId))
    (fun _ _ hstep hP => ⟨hP.1.of_move (hstep.move _), hP.2.of_extends (hstep.lock _ hP.1)⟩)
    ⟨sound_storesAfter before n guildId, VoteSlot.pledged_self h⟩ between
  exact hrun.2

variable {d : GuildCheckpoint}

/-- A later signature of the same generation is for the same hash. -/
lemma hash_eq_of_sign {view' : NodeView} {between : List (NodeId × NodeCall)}
    {signature' : MemberSignature}
    (hc : (view.signCheckpoint C (storesAfter C before n) c).2 = .ok signature)
    (hd : (view'.signCheckpoint C
      (storesAfter C (before ++ (n, .sign view c) :: between) n) d).2 = .ok signature')
    (hguild : c.guildId = d.guildId) (hgen : c.generation = d.generation) :
    c.hash C = d.hash C := by
  obtain ⟨hash, hhash, hfirst⟩ := lock_of_sign hc
  obtain ⟨hash', hhash', hsecond⟩ := lock_of_sign hd
  have hlist : (before ++ (n, .sign view c) :: between) ++ [(n, .sign view' d)] =
      (before ++ [(n, .sign view c)]) ++ (between ++ [(n, .sign view' d)]) := by simp
  rw [hlist, ← hguild] at hsecond
  have hpledged := pledged_of_lock hfirst (between ++ [(n, .sign view' d)])
  have heq : hash' = hash :=
    congrArg Ballot.hash (hpledged.eq_of_lock hsecond (congrArg Fin.val hgen.symm))
  rw [hhash, hhash', heq]

/-- Two signatures of one node and one generation are for the same hash. -/
lemma hash_eq_of_issued {calls : List (NodeId × NodeCall)} {signature' : MemberSignature}
    (hc : Issued C calls n c signature) (hd : Issued C calls n d signature')
    (hguild : c.guildId = d.guildId) (hgen : c.generation = d.generation) :
    c.hash C = d.hash C := by
  obtain ⟨before, view, rest, hsplit, hsign⟩ := hc
  obtain ⟨before', view', rest', hsplit', hsign'⟩ := hd
  rw [hsplit] at hsplit'
  -- the two calls are at one place of the run, or one of them comes first
  rcases List.append_eq_append_iff.mp hsplit' with ⟨mid, rfl, hmid⟩ | ⟨mid, rfl, hmid⟩
  · cases mid with
    | nil =>
      obtain ⟨hcall, -⟩ := List.cons.inj hmid
      obtain ⟨-, rfl⟩ := NodeCall.sign.inj (Prod.mk.inj hcall).2
      rfl
    | cons call between =>
      obtain ⟨rfl, -⟩ := List.cons.inj hmid
      exact hash_eq_of_sign hsign hsign' hguild hgen
  · cases mid with
    | nil =>
      obtain ⟨hcall, -⟩ := List.cons.inj hmid
      obtain ⟨-, rfl⟩ := NodeCall.sign.inj (Prod.mk.inj hcall).2
      rfl
    | cons call between =>
      obtain ⟨rfl, -⟩ := List.cons.inj hmid
      exact (hash_eq_of_sign hsign' hsign hguild.symm hgen.symm).symm

lemma generation_le_head {head : CheckpointRow} (h : head ∈ (storesAfter C before n).heads guildId)
    (between : List (NodeId × NodeCall)) :
    ∃ later ∈ (storesAfter C (before ++ between) n).heads guildId,
      head.generation ≤ later.generation := by
  refine storesAfter_invariant
    (P := fun db : ControlStore => ∃ later ∈ db.heads guildId,
      head.generation ≤ later.generation) ?_ ⟨head, h, le_rfl⟩ between
  rintro db db' hstep ⟨later, hlater, hle⟩
  obtain ⟨r, hr, hmono⟩ := (hstep.move guildId).head_mono (mem_slot_head.mpr ⟨later, hlater, rfl⟩)
  obtain ⟨next, hnext, rfl⟩ := mem_slot_head.mp hr
  refine ⟨next, hnext, hle.trans ?_⟩
  rcases hmono with heq | hlt
  · exact (congrArg Ballot.generation heq).ge
  · exact le_of_lt (show later.generation.val < next.generation.val from hlt)

/-- The digests of two checkpoints are those of their encodings. -/
lemma blake3_eq_of_hash_eq {bytes bytes' : List UInt8} (h : c.hash C = d.hash C)
    (hc : canonicalBytes GuildCheckpoint.codec c = .ok bytes)
    (hd : canonicalBytes GuildCheckpoint.codec d = .ok bytes') :
    C.blake3 bytes = C.blake3 bytes' := by
  rw [GuildCheckpoint.hash, GuildCheckpoint.hash, hc, hd] at h
  exact Except.ok.inj h

/-- **Checkpoint agreement.** Whatever the nodes consult, and in whatever order they sign and store,
a node signs one checkpoint of a generation, certificates of one generation that share a node
running this code agree, and no store goes back. -/
theorem checkpoint_agreement (C : Crypto) (calls : List (NodeId × NodeCall)) :
    CheckpointAgreement C calls := by
  refine ⟨fun n c d signature signature' => hash_eq_of_issued, ?_, ?_, ?_⟩
  · rintro runsCode q q' hq hq' ⟨n, hn, hsigner, hsigner'⟩ hguild hgen
    obtain ⟨signature, hmem, rfl⟩ := List.mem_map.mp hsigner
    obtain ⟨signature', hmem', hsame⟩ := List.mem_map.mp hsigner'
    have hissued := hq.issued signature hmem hn
    have hissued' := hq'.issued signature' hmem' (hsame ▸ hn)
    rw [hsame] at hissued'
    have hhash := hash_eq_of_issued hissued hissued' hguild hgen
    exact ⟨hhash, fun bytes bytes' hbytes hbytes' hcollision =>
      hcollision (blake3_eq_of_hash_eq hhash hbytes hbytes')⟩
  · intro before between rest _ n guildId head hhead
    exact generation_le_head hhead between
  · intro before between rest _ n id bytes hentry
    exact storesAfter_invariant
      (P := fun db : ControlStore => db.records .guildCheckpointGeneration id = some bytes)
      (fun _ _ hstep hP => hstep.index id bytes hP) hentry between

/-! ## Losing votes -/

/-- A vote that may lose: the store has a head and a lock one generation ahead, and there is a
certified successor of the head, of the generation of the lock, whose body passes the transition
checks after the checkpoint of the head. -/
structure Contested (C : Crypto) (view : NodeView) (db : ControlStore) (head lock : CheckpointRow)
    (q : QuorumCheckpoint) (historicalCoverage : Bool) : Prop where
  head_eq : db.heads q.checkpoint.guildId = some head
  lock_eq : db.locks q.checkpoint.guildId = some lock
  ahead : head.generation.checkedSucc = some lock.generation
  verified : q.verify C = .ok ()
  generation_eq : q.checkpoint.generation = lock.generation
  parent_eq : q.checkpoint.parent = some head.hash
  body : ∃ previous, head.decode false = .ok previous ∧
    view.checkSuccessor C db head.hash previous q.checkpoint historicalCoverage = .ok ()

/-- The transition check accepts the checkpoint, and it commits and takes the lock. -/
def Accepts (C : Crypto) (view : NodeView) (db : ControlStore) (q : QuorumCheckpoint)
    (historicalCoverage : Bool) (legacyEpoch : Option U64) : Prop :=
  view.validateCheckpointTransition C db q.checkpoint historicalCoverage = .ok () ∧
    ∃ commit db', NodeView.commitOf C q = .ok commit ∧
      db.commitCheckpointWithLegacyEpoch commit false legacyEpoch = .ok db' ∧
      db'.locks q.checkpoint.guildId = some commit.lockRow ∧
      db'.heads q.checkpoint.guildId = some commit.headRow

/-- The immutable records of the store admit the commit of a checkpoint. -/
def Admits (C : Crypto) (db : ControlStore) (q : QuorumCheckpoint) (legacyEpoch : Option U64) :
    Prop :=
  ∃ commit, NodeView.commitOf C q = .ok commit ∧ ControlStore.Recordable db commit legacyEpoch

variable {head lock : CheckpointRow} {q : QuorumCheckpoint} {historicalCoverage : Bool}
  {legacyEpoch : Option U64}

/-- A contested checkpoint is compared with the lock. -/
lemma Contested.validate_eq (h : Contested C view db head lock q historicalCoverage) :
    view.validateCheckpointTransition C db q.checkpoint historicalCoverage =
      view.validateAfter C db lock true q.checkpoint historicalCoverage := by
  have hahead := U64.checkedSucc_eq_some.mp h.ahead
  have hle : head.generation ≤ lock.generation := Fin.le_def.mpr (by omega)
  have hlast : db.lastAccepted q.checkpoint.guildId = some (lock, true) := by
    rw [lastAccepted, h.lock_eq, h.head_eq]
    exact if_pos hle
  rw [NodeView.validateCheckpointTransition, hlast]

/-- The transition check accepts a contested checkpoint exactly when it is the locked one. -/
lemma Contested.validate_iff (h : Contested C view db head lock q historicalCoverage) :
    view.validateCheckpointTransition C db q.checkpoint historicalCoverage = .ok () ↔
      q.hash C = .ok lock.hash := by
  rw [h.validate_eq]
  constructor
  · intro hvalidate
    rcases of_validateAfter hvalidate with ⟨-, hhash⟩ | ⟨hnext, -⟩
    · exact hhash
    · -- the generation of the lock is not its own successor
      have hsucc := U64.checkedSucc_eq_some.mp hnext
      rw [h.generation_eq] at hsucc
      omega
  · intro hhash
    have hsame : lock.isOf C q.checkpoint = .ok true := by
      rw [CheckpointRow.isOf, if_pos h.generation_eq.symm]
      refine map_eq_ok.mpr ⟨lock.hash, hhash, decide_eq_true rfl⟩
    rw [NodeView.validateAfter, hsame]
    rfl

/-- **A losing vote strands the node.** A certified successor of the head is stored over an
uncommitted lock of its generation exactly when it is the checkpoint the node voted for, and the
immutable records admit it. -/
theorem losing_vote_accepted_iff (h : Contested C view db head lock q historicalCoverage) :
    Accepts C view db q historicalCoverage legacyEpoch ↔
      q.hash C = .ok lock.hash ∧ Admits C db q legacyEpoch := by
  have hverified := QuorumCheckpoint.verified_of_verify h.verified
  -- the commit itself looks at the head only, which the checkpoint succeeds
  have hcommit : ∀ commit, NodeView.commitOf C q = .ok commit →
      (Succeeds (db.commitCheckpointWithLegacyEpoch commit false legacyEpoch) ↔
        ControlStore.Recordable db commit legacyEpoch) := by
    intro commit hcommit
    obtain ⟨-, hguild, hgen, hparent⟩ := commitOf_spec hcommit
    refine ControlStore.commit_succeeds_iff (hguild ▸ h.head_eq) ⟨?_, hparent.trans h.parent_eq⟩
      (hgen ▸ hverified.valid.generation_le)
    rw [hgen, h.generation_eq]
    exact h.ahead
  rw [Accepts, h.validate_iff]
  refine and_congr_right fun _ => ?_
  constructor
  · rintro ⟨commit, db', hof, hstore, -⟩
    exact ⟨commit, hof, (hcommit commit hof).mp ⟨db', hstore⟩⟩
  · rintro ⟨commit, hof, hrecord⟩
    obtain ⟨db', hstore⟩ := (hcommit commit hof).mpr hrecord
    have hwrites := (ControlStore.commitCheckpointWithLegacyEpoch_spec hstore).1.writes
    obtain ⟨-, hguild, -, -⟩ := commitOf_spec hof
    refine ⟨commit, db', hof, hstore, ?_, ?_⟩
    · rw [← hguild, hwrites.locks_eq, Function.update_self]
    · rw [← hguild, hwrites.heads_eq, Function.update_self]

/-! ### A stranded node

The three nodes of the small guild commit a first checkpoint.  Node 1 signs one second checkpoint,
nodes 2 and 3 certify another. -/

def firstCertificate : QuorumCheckpoint := smallCertificate firstCheckpoint
    13917814909185446001042795277713700080327593208148298894039019738025612800672 [1, 2]

/-- Node 1 after it has stored the first checkpoint. -/
def committedStore : ControlStore :=
  ((smallView 1).storeCheckpointWithAuthority .transparent .empty firstCertificate true false).1

/-- Node 1 after it has voted for a second checkpoint. -/
def votedStore : ControlStore :=
  ((smallView 1).signCheckpoint .transparent committedStore secondCheckpoint).1

/-- The rows of its head and of its lock. -/
def votedHead : CheckpointRow :=
  ⟨1, firstCheckpointHash, (QuorumCheckpoint.codec.encode firstCertificate).getD []⟩

def votedLock : CheckpointRow :=
  ⟨2, secondCheckpointHash, (GuildCheckpoint.codec.encode secondCheckpoint).getD []⟩

lemma votedStore_rows :
    votedStore.heads 7 = some votedHead ∧ votedStore.locks 7 = some votedLock := by
  decide +kernel

/-- The certificate that the other two nodes make. -/
def rivalCertificate : QuorumCheckpoint := smallCertificate rivalCheckpoint
    112255819077814228611073586390110872308180872594484518456267746549687639084594 [2, 3]

lemma contested_rival :
    Contested .transparent (smallView 1) votedStore votedHead votedLock rivalCertificate false := by
  have hguild : rivalCertificate.checkpoint.guildId = 7 := by decide +kernel
  obtain ⟨hhead, hlock⟩ := votedStore_rows
  rw [← hguild] at hhead hlock
  exact ⟨hhead, hlock, by decide +kernel, by decide +kernel, by decide +kernel, by decide +kernel,
    firstCheckpoint, by decide +kernel, by decide +kernel⟩

theorem losing_vote_accepted_iff_rival :
    Contested .transparent (smallView 1) votedStore votedHead votedLock rivalCertificate false ∧
      (Accepts .transparent (smallView 1) votedStore rivalCertificate false none ↔
        rivalCertificate.hash .transparent = .ok votedLock.hash ∧
          Admits .transparent votedStore rivalCertificate none) :=
  ⟨contested_rival, losing_vote_accepted_iff contested_rival⟩

theorem stranded_by_losing_vote :
    Contested .transparent (smallView 1) votedStore votedHead votedLock rivalCertificate false ∧
      ∀ legacyEpoch,
        ¬ Accepts .transparent (smallView 1) votedStore rivalCertificate false legacyEpoch := by
  refine ⟨contested_rival, ?_⟩
  rintro legacyEpoch ⟨hvalidate, -⟩
  have hhash : rivalCertificate.hash .transparent ≠ .ok votedLock.hash := by decide +kernel
  exact hhash (contested_rival.validate_iff.mp hvalidate)

end MutualBackup

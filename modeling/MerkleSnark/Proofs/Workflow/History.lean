import Mathlib
import MerkleSnark.Circuit.Registry
import MerkleSnark.Proofs.Circuit.Sha256Complete
import MerkleSnark.Proofs.Codec.RoundTrip
import MerkleSnark.Proofs.Workflow.Phase

/-!
# Histories of a work directory

The phases are called one after another on the same volume, each with a backend of its own and under
at most one fault.  What the successful calls promise is kept by all calls that fail: keys that were
made stay a pair, and the proof that was made last stays one for its root.

## Main definitions

* `Workflow.Attempt` — a call of a phase.
* `Workflow.Stage` — what the successful calls promise.
* `Workflow.history` — calls one after another.
* `Workflow.Kept` — a volume on which the promise is kept.

## Main results

* `Workflow.Kept.advance` — a call keeps the promise.
* `Workflow.verify_history` — the proof that was made last is accepted.
* `Workflow.proof_removed_as_backup` — names for which it is lost.
-/

namespace MerkleSnark

open Groth16 WorkflowM
open Replacement (Replaceable)

namespace Workflow

variable {σ P Q T : Type} [ScalarSource σ] [PointGroup P] [PointGroup Q] [Pairing P Q T]
  [PointCodec P] [PointCodec Q]

/-! ### Calls one after another -/

/-- A call of one of the phases. -/
inductive Call
  /-- Makes keys. -/
  | setup
  /-- Proves the root of leaves. -/
  | prove (leaves : List Leaf)
  /-- Judges a proof. -/
  | verify (leaf : Option String)
  deriving DecidableEq, Repr

/-- A call with the session of its backend, and the fault that is to come during it. -/
structure Attempt (σ P Q : Type) where
  /-- The phase and what is given to it. -/
  call : Call
  /-- The session that the backend begins with. -/
  session : Session σ P Q
  /-- The operation of the disk that fails, if any. -/
  fault : Option Fault

/-- What comes of a phase, and the volume that it leaves. -/
def outcome {α : Type} (x : WorkflowM (Session σ P Q) (Faulty (StateM Volume)) α)
    (session : Session σ P Q) (fault : Option Fault) (v : Volume) :
    Except WorkflowError α × Volume :=
  let ended := Faulty.exec (x.run.run session) (fault, v)
  (ended.1.1, ended.2.2)

omit [ScalarSource σ] [PointGroup P] [PointGroup Q] [Pairing P Q T] [PointCodec P] [PointCodec Q] in
theorem outcome_eq {α : Type} {x : WorkflowM (Session σ P Q) (Faulty (StateM Volume)) α}
    {session : Session σ P Q} {fault : Option Fault} {v v' : Volume}
    {result : Except WorkflowError α}
    (hresult : Ends x session (fault, v) fun r _ _ => r = result)
    (hworld : Ends x session (fault, v) fun _ _ world => world.2 = v') :
    outcome x session fault v = (result, v') := Prod.ext hresult hworld

/-- Whether a call succeeds, and the volume that it leaves. -/
def Attempt.perform (w : Workflow (Session σ P Q) P Q) (a : Attempt σ P Q) (v : Volume) :
    Bool × Volume :=
  match a.call with
  | .setup => (outcome w.setup a.session a.fault v).map Except.toBool id
  | .prove leaves => (outcome (w.prove leaves) a.session a.fault v).map Except.toBool id
  | .verify leaf => (outcome (w.verify leaf) a.session a.fault v).map Except.toBool id

/-- What the successful calls promise. -/
inductive Stage
  /-- No keys have been made. -/
  | fresh
  /-- Keys have been made, and no proof with them. -/
  | keyed
  /-- Keys have been made and a proof with them, the last one for these leaves. -/
  | proven (leaves : List Leaf)
  deriving DecidableEq, Repr

/-- The stage after a call that succeeds. -/
def Stage.after : Stage → Call → Stage
  | _, .setup => .keyed
  | .fresh, .prove _ => .fresh
  | _, .prove leaves => .proven leaves
  | stage, .verify _ => stage

theorem Stage.after_prove {stage : Stage} (h : stage ≠ .fresh) (leaves : List Leaf) :
    stage.after (.prove leaves) = .proven leaves := by
  cases stage with
  | fresh => exact absurd rfl h
  | keyed => rfl
  | proven _ => rfl

theorem Stage.after_verify (stage : Stage) (leaf : Option String) :
    stage.after (.verify leaf) = stage := by
  cases stage <;> rfl

/-- One call; the stage is another one only when the call succeeds. -/
def advance (w : Workflow (Session σ P Q) P Q) (state : Stage × Volume) (a : Attempt σ P Q) :
    Stage × Volume :=
  let performed := a.perform w state.2
  (if performed.1 then state.1.after a.call else state.1, performed.2)

/-- Calls one after another on a volume on which nothing is promised. -/
def history (w : Workflow (Session σ P Q) P Q) (attempts : List (Attempt σ P Q)) (v : Volume) :
    Stage × Volume :=
  attempts.foldl w.advance (.fresh, v)

/-! ### What is promised is kept -/

variable {A B U : Type} [AddCommGroup A] [AddCommGroup B] [CommGroup U]
variable {w : Workflow (Session σ P Q) P Q} {gadget : HashGadget}
  {hash : List Bool → List Bool → List Bool} {files : Artifacts} {M : Pairing.Model P Q T A B U}
  {circuit : MerkleCircuit} {board : Board} {state : Stage × Volume} {a : Attempt σ P Q}

/-- All artifacts can be replaced; the keys that were made can be read, and so can the proof that
was made with them last. -/
structure Kept (w : Workflow (Session σ P Q) P Q) (gadget : HashGadget)
    (hash : List Bool → List Bool → List Bool) (files : Artifacts) (M : Pairing.Model P Q T A B U)
    (cs : ConstraintSystem) (state : Stage × Volume) : Prop where
  replaceable : Replaceable state.2 files.all
  keyed : state.1 ≠ .fresh → files.Keyed M cs state.2
  proven : ∀ leaves, state.1 = .proven leaves → ∃ root,
    RootAbove gadget hash w.config.treeDepth leaves root ∧ files.Proven P Q root state.2

omit [ScalarSource σ] in
theorem Kept.of_keeps {cs : ConstraintSystem} (h : Kept w gadget hash files M cs state) {v : Volume}
    (hR : Replaceable v files.all) (hkeeps : state.2.KeepsFiles v) :
    Kept w gadget hash files M cs (state.1, v) where
  replaceable := hR
  keyed hstage := (h.keyed hstage).of_keeps hkeeps
  proven leaves hstage := by
    obtain ⟨root, habove, hproven⟩ := h.proven leaves hstage
    exact ⟨root, habove, hproven.of_keeps hkeeps⟩

omit [ScalarSource σ] in
/-- A phase keeps the promise when it keeps the old one by failing and the new one by succeeding. -/
theorem Kept.of_ends {α : Type} {cs : ConstraintSystem} {stage : Stage} {session : Session σ P Q}
    {fault : Option Fault} {x : WorkflowM (Session σ P Q) (Faulty (StateM Volume)) α}
    (h : Ends x session (fault, state.2) fun result _ world =>
      match result with
      | .ok _ => Kept w gadget hash files M cs (stage, world.2)
      | .error _ => Kept w gadget hash files M cs (state.1, world.2)) :
    Kept w gadget hash files M cs
      (if (outcome x session fault state.2).1.toBool then stage else state.1,
        (outcome x session fault state.2).2) := by
  rw [Ends, Faulty.Ends] at h
  unfold outcome
  rcases hrun : Faulty.exec (x.run.run session) (fault, state.2) with ⟨⟨_ | _, session'⟩, world⟩ <;>
    rw [hrun] at h
  · exact h
  · exact h

/-- **A call keeps what is promised**, whether it succeeds or not. -/
theorem Kept.advance (hw : w.Serves gadget hash files)
    (hcircuit : circuitOf gadget w.config.treeDepth = .ok (circuit, board))
    (hassign : Assignable gadget hash w.config.treeDepth circuit board)
    (hfirst : M.first.ReadsBack) (hsecond : M.second.ReadsBack) (ha : a.session.Honest)
    (h : Kept w gadget hash files M board.system state) :
    Kept w gadget hash files M board.system (w.advance state a) := by
  obtain ⟨call, session, fault⟩ := a
  have hR := h.replaceable
  cases call with
  | setup =>
    refine Kept.of_ends ((hw.ends_setup hcircuit hfirst hsecond ha hR).mono
      fun result _ world hends => ?_)
    obtain ⟨hR', hpost⟩ := hends
    cases result with
    | error e => exact h.of_keeps hR' hpost
    | ok report => exact ⟨hR', fun _ => hpost, nofun⟩
  | prove leaves =>
    refine Kept.of_ends ((hw.ends_prove hcircuit hassign hfirst hsecond hR leaves).mono
      fun result _ world hends => ?_)
    obtain ⟨hR', hpost⟩ := hends
    cases result with
    | error e => exact h.of_keeps hR' hpost
    | ok report =>
      -- a proving key that was there beforehand may belong to any circuit
      by_cases hfresh : state.1 = .fresh
      · rw [hfresh]
        exact ⟨hR', fun hne => absurd rfl hne, nofun⟩
      · rw [Stage.after_prove hfresh]
        obtain ⟨hkeyed, root, hroot⟩ := hpost (h.keyed hfresh)
        refine ⟨hR', fun _ => hkeyed, fun leaves' heq => ?_⟩
        cases heq
        exact ⟨root, hroot⟩
  | verify leaf =>
    refine Kept.of_ends ((hw.ends_verify hR leaf).mono fun result _ world hworld => ?_)
    subst hworld
    rw [Stage.after_verify]
    cases result with
    | error e => exact h
    | ok verdict => exact h

/-- **A history keeps what is promised.** -/
theorem Kept.history (hw : w.Serves gadget hash files)
    (hcircuit : circuitOf gadget w.config.treeDepth = .ok (circuit, board))
    (hassign : Assignable gadget hash w.config.treeDepth circuit board)
    (hfirst : M.first.ReadsBack) (hsecond : M.second.ReadsBack) {attempts : List (Attempt σ P Q)}
    (hhonest : ∀ a ∈ attempts, a.session.Honest)
    (h : Kept w gadget hash files M board.system state) :
    Kept w gadget hash files M board.system (attempts.foldl w.advance state) := by
  induction attempts generalizing state with
  | nil => exact h
  | cons a attempts ih =>
    obtain ⟨ha, hothers⟩ := List.forall_mem_cons.mp hhonest
    exact ih hothers (h.advance hw hcircuit hassign hfirst hsecond ha)

/-- **The proof that was made last is accepted.**  Start from any volume on which the artifacts can
be replaced and let phases be called in any order, each with an honest session of its own and at
most one fault, so that each may fail.  If keys have been made and then a proof, verifying accepts
the proof and tells the root above the leaves of the last successful proof.  The gadget may be any
that is complete for its hash, such as the one of SHA-256, and the groups any whose points keep
their elements when they are read back, such as the two curves. -/
theorem verify_history :
    (Sha256Gadget.gadget.Complete Sha256Gadget.hash ∧ G1.model.ReadsBack
      ∧ G2.subgroupModel.ReadsBack)
    ∧ ∀ (w : Workflow (Session σ P Q) P Q) (gadget : HashGadget)
      (hash : List Bool → List Bool → List Bool) (files : Artifacts), w.Serves gadget hash files →
      ∀ M : Pairing.Model P Q T A B U, M.first.ReadsBack → M.second.ReadsBack →
      ∀ v : Volume, Replaceable v files.all →
      ∀ attempts : List (Attempt σ P Q), (∀ a ∈ attempts, a.session.Honest) →
      ∀ leaves, (w.history attempts v).1 = .proven leaves →
        ∃ root hex, RootAbove gadget hash w.config.treeDepth leaves root
          ∧ bitsToHex? (bitEntries root) = .ok hex
          ∧ ∀ (leaf : Option String) (session : Session σ P Q),
            outcome (w.verify leaf) session none (w.history attempts v).2
              = (.ok ⟨true, hex, leaf⟩, (w.history attempts v).2) := by
  refine ⟨⟨Sha256Gadget.complete, G1.readsBack_model, G2.readsBack_subgroupModel⟩, ?_⟩
  intro w gadget hash files hw M hfirst hsecond v hR attempts hhonest leaves hlast
  obtain ⟨circuit, board, hcircuit, hassign⟩ :=
    exists_circuitOf_eq hw.complete w.config.treeDepth_pos
  have hfresh : Kept w gadget hash files M board.system (.fresh, v) :=
    ⟨hR, fun hne => absurd rfl hne, nofun⟩
  have hkept := hfresh.history hw hcircuit hassign hfirst hsecond hhonest
  obtain ⟨root, habove, hproven⟩ := hkept.proven leaves hlast
  have hproof := hproven
  obtain ⟨-, -, hex, -, -, -, hhex, -⟩ := hproof
  refine ⟨root, hex, habove, hhex, fun leaf session => ?_⟩
  exact outcome_eq (hw.ends_verify_of_proven hkept.replaceable hproven hhex leaf)
    ((hw.ends_verify hkept.replaceable leaf).mono fun _ _ _ => congrArg Prod.snd)

/-! ### A trial -/

/-- Places beside each other. -/
def plain : Artifacts where
  provingKey := ⟨.here, ["k"]⟩
  verificationKey := ⟨.here, ["v"]⟩
  proof := ⟨.here, ["p"]⟩
  root := ⟨.here, ["r"]⟩

/-- The proof is where the root is set aside. -/
def colliding : Artifacts := { plain with proof := ⟨.here, [".r.bak"]⟩ }

/-- A workflow for two leaves with digests of four bits. -/
def trial (files : Artifacts) :
    Workflow (Session Cycle ExponentPoint ExponentPoint) ExponentPoint ExponentPoint where
  gadgets := [("xor4", XorGadget.gadget 4 1)]
  backend := .groth16
  config :=
    { treeDepth := 1
      hashGadget := some "xor4"
      provingKeyFile := some files.provingKey
      verificationKeyFile := some files.verificationKey
      proofFile := some files.proof
      rootFile := some files.root }

/-- A session with five scalars. -/
def trialSession : Session Cycle ExponentPoint ExponentPoint :=
  { source := .ofList [2, 3, 5, 7, 11] }

/-- Two leaves. -/
def trialLeaves : List Leaf := [.ofString "a", .ofString "b"]

/-- A directory with an old root. -/
def staleRoot : Volume := { entries := [(["r"], .file [9])] }

theorem serves_trial (files : Artifacts) (h : ∀ p ∈ files.all, Path.join {} p = p) :
    (trial files).Serves (XorGadget.gadget 4 1) (XorGadget.hash 4 1) files := by
  simp only [Artifacts.all, List.mem_cons, List.not_mem_nil, or_false, forall_eq_or_imp,
    forall_eq] at h
  obtain ⟨hpk, hvk, hproof, hroot⟩ := h
  exact
    { backend := rfl
      find_gadget := rfl
      complete := XorGadget.complete 4 1
      provingKey := congrArg some hpk
      verificationKey := congrArg some hvk
      proof := congrArg some hproof
      root := congrArg some hroot }

theorem honest_trialSession : trialSession.Honest where
  positive := Cycle.positive_ofList (by decide) (by decide)
  sound := fun _ h => absurd h List.not_mem_nil

/-- Keys and a proof are made; then keys cannot be put in place, and another proof is refused. -/
def trialAttempts : List (Attempt Cycle ExponentPoint ExponentPoint) :=
  [⟨.setup, trialSession, none⟩, ⟨.prove trialLeaves, trialSession, none⟩,
    ⟨.setup, trialSession, some ⟨9, .notEmpty⟩⟩, ⟨.prove [], trialSession, none⟩]

theorem replaceable_staleRoot : Replaceable staleRoot plain.all := by
  have hsiblings : Replaceable staleRoot (["k", "v", "p", "r"].map (Path.child ⟨.here, []⟩)) :=
    .of_siblings (.of_forall_mem (by decide) (by decide)) (fun _ h => absurd h List.not_mem_nil)
      (by decide) (by decide) (by decide) (by decide)
  exact hsiblings

/-- The first proof is accepted after the two calls that fail. -/
theorem verify_history_trial :
    (trial plain).Serves (XorGadget.gadget 4 1) (XorGadget.hash 4 1) plain
      ∧ ExponentPoint.pairingModel.first.ReadsBack ∧ ExponentPoint.pairingModel.second.ReadsBack
      ∧ Replaceable staleRoot plain.all
      ∧ (∀ a ∈ trialAttempts, a.session.Honest)
      ∧ ((trial plain).history trialAttempts staleRoot).1 = .proven trialLeaves
      ∧ ∃ root hex, RootAbove (XorGadget.gadget 4 1) (XorGadget.hash 4 1) 1 trialLeaves root
        ∧ bitsToHex? (bitEntries root) = .ok hex
        ∧ (outcome ((trial plain).verify none) trialSession none
            ((trial plain).history trialAttempts staleRoot).2).1
          = .ok ⟨true, hex, none⟩ := by
  have hserves := serves_trial plain (by decide)
  have hback := ExponentPoint.readsBack_groupModel
  have hhonest : ∀ a ∈ trialAttempts, a.session.Honest := by
    simp [trialAttempts, honest_trialSession]
  have hlast : ((trial plain).history trialAttempts staleRoot).1 = .proven trialLeaves := by
    decide +kernel
  obtain ⟨root, hex, habove, hhex, hverify⟩ := verify_history.2 _ _ _ _ hserves
    ExponentPoint.pairingModel hback hback _ replaceable_staleRoot _ hhonest _ hlast
  exact ⟨hserves, hback, hback, replaceable_staleRoot, hhonest, hlast, root, hex, habove, hhex,
    congrArg Prod.fst (hverify none trialSession)⟩

/-- When the proof has the name of a backup of the root, an old root is set aside in its place and
removed in the end, so the proof is gone although proving succeeds. -/
theorem proof_removed_as_backup :
    (trial colliding).Serves (XorGadget.gadget 4 1) (XorGadget.hash 4 1) colliding
      ∧ (∀ a ∈ trialAttempts.take 2, a.session.Honest)
      ∧ colliding.all.Nodup
      ∧ (∀ p ∈ colliding.all,
          staleRoot.entry? (staleRoot.place p) ≠ some .directory
            ∧ staleRoot.entry? (staleRoot.place (Replacement.backupOf p)) = none)
      ∧ ((trial colliding).history (trialAttempts.take 2) staleRoot).1
        = .proven trialLeaves
      ∧ (outcome ((trial colliding).verify none) trialSession none
          ((trial colliding).history (trialAttempts.take 2) staleRoot).2).1
        = .error (.artifact ⟨.here, [".r.bak"]⟩ .absent) := by
  have hhonest : ∀ a ∈ trialAttempts.take 2, a.session.Honest := by
    simp [trialAttempts, honest_trialSession]
  have hrun : (fun ended : Stage × Volume => ended.1 = .proven trialLeaves
      ∧ (outcome ((trial colliding).verify none) trialSession none ended.2).1
        = .error (.artifact ⟨.here, [".r.bak"]⟩ .absent))
      ((trial colliding).history (trialAttempts.take 2) staleRoot) := by
    decide +kernel
  exact ⟨serves_trial colliding (by decide), hhonest, by decide, by decide, hrun.1, hrun.2⟩

end Workflow

end MerkleSnark

import Mathlib
import MerkleSnark.Proofs.Codec.Packing
import MerkleSnark.Proofs.Groth16.Session
import MerkleSnark.Proofs.Workflow.Circuit
import MerkleSnark.Proofs.Workflow.Rules

/-!
# What the phases leave in the work directory

Setup leaves a pair of keys for the circuit or all files as they are; proving leaves a proof that
the verification key accepts or all files as they are; verifying changes nothing, and it accepts
what an honest prover has left.  Which of these happens may depend on a fault.

## Main definitions

* `Artifacts` — where the artifacts are.
* `Artifacts.Keyed`, `Artifacts.Proven` — what can be read in a work directory.
* `Workflow.Serves` — a workflow for a complete gadget.

## Main results

* `Workflow.Serves.ends_setup`, `Workflow.Serves.ends_prove`, `Workflow.Serves.ends_verify`,
  `Workflow.Serves.ends_verify_of_proven` — one phase.
-/

namespace MerkleSnark

open Groth16 WorkflowM
open Replacement (Replaceable)

/-! ### The artifacts -/

/-- Where the four artifacts are. -/
structure Artifacts where
  /-- The proving key. -/
  provingKey : Path
  /-- The verification key. -/
  verificationKey : Path
  /-- The proof. -/
  proof : Path
  /-- The public root. -/
  root : Path
  deriving DecidableEq, Repr

/-- The paths of all artifacts. -/
def Artifacts.all (a : Artifacts) : List Path := [a.provingKey, a.verificationKey, a.proof, a.root]

theorem Artifacts.checked?_eq (files : Artifacts) {v : Volume} (h : Replaceable v files.all) :
    files.provingKey.checked? = .ok files.provingKey
      ∧ files.verificationKey.checked? = .ok files.verificationKey
      ∧ files.proof.checked? = .ok files.proof ∧ files.root.checked? = .ok files.root := by
  have husable : ∀ p ∈ files.all, p.checked? = .ok p := h.usable
  simpa [Artifacts.all] using husable

/-- The keys are in other places than the proof and the root. -/
theorem Artifacts.place_ne (files : Artifacts) {v : Volume} (h : Replaceable v files.all)
    {p q : Path} (hp : p ∈ [files.provingKey, files.verificationKey])
    (hq : q ∈ [files.proof, files.root]) : v.place p ≠ v.place q := by
  have hdistinct := h.distinct
  have hall : files.all
      = [files.provingKey, files.verificationKey] ++ [files.proof, files.root] := rfl
  rw [hall, List.map_append, List.nodup_append] at hdistinct
  exact hdistinct.2.2 _ (List.mem_map_of_mem hp) _ (List.mem_map_of_mem hq)

/-- A root above the digests of leaves. -/
def RootAbove (gadget : HashGadget) (hash : List Bool → List Bool → List Bool) (depth : ℕ)
    (leaves : List Leaf) (root : List Bool) : Prop :=
  ∃ digests : List (List Bool),
    (leaves.mapM fun leaf => leaf.digest? gadget.digestSize) = .ok (digests.map bitEntries)
      ∧ root = treeRoot hash depth digests

section Contents

variable {P Q T : Type} [PointGroup P] [PointGroup Q] [Pairing P Q T] [PointCodec P] [PointCodec Q]
variable {A B U : Type} [AddCommGroup A] [AddCommGroup B] [CommGroup U]

/-- Both keys can be read, and they are a pair for the system. -/
def Artifacts.Keyed (files : Artifacts) (M : Pairing.Model P Q T A B U) (cs : ConstraintSystem)
    (v : Volume) : Prop :=
  ∃ s polys pk vk, v.Stores files.provingKey ProvingKey.decode pk
    ∧ v.Stores files.verificationKey VerificationKey.decode vk ∧ KeyPair M cs.reread s polys pk vk

/-- A proof and the text of a root can be read, and the key that can be read accepts the proof. -/
def Artifacts.Proven (files : Artifacts) (P Q : Type) {T : Type} [PointGroup P] [PointGroup Q]
    [Pairing P Q T] [PointCodec P] [PointCodec Q] (root : List Bool) (v : Volume) : Prop :=
  ∃ (vk : VerificationKey P Q) (proof : Proof P Q) (hex : String),
    v.Stores files.verificationKey VerificationKey.decode vk
      ∧ v.Stores files.proof Proof.decode proof
      ∧ v.read files.root = .ok (hex ++ "\n").toUTF8.toList
      ∧ bitsToHex? (bitEntries root) = .ok hex
      ∧ vk.numPublicInputs = root.length
      ∧ verify vk (root.map bitScalar) proof = .ok true

namespace Artifacts

variable {files : Artifacts} {u v : Volume}

theorem Keyed.of_keeps {M : Pairing.Model P Q T A B U} {cs : ConstraintSystem}
    (h : files.Keyed M cs u) (hkeeps : u.KeepsFiles v) : files.Keyed M cs v := by
  obtain ⟨s, polys, pk, vk, hpk, hvk, hpair⟩ := h
  exact ⟨s, polys, pk, vk, hpk.of_read (hkeeps _), hvk.of_read (hkeeps _), hpair⟩

theorem Proven.of_keeps {root : List Bool} (h : files.Proven P Q root u) (hkeeps : u.KeepsFiles v) :
    files.Proven P Q root v := by
  obtain ⟨vk, proof, hex, hvk, hproof, hroot, h⟩ := h
  exact ⟨vk, proof, hex, hvk.of_read (hkeeps _), hproof.of_read (hkeeps _), hkeeps _ _ hroot, h⟩

/-- The keys are still there when a proof that they accept is put beside them. -/
theorem keyed_and_proven_of_replaced {M : Pairing.Model P Q T A B U} {cs : ConstraintSystem}
    {s : Secrets} {polys : Sides (List Fr)} {pk : ProvingKey P Q} {vk : VerificationKey P Q}
    {proof : Proof P Q} {root : List Bool} {hex : String} {bs : Bytes}
    (hR : Replaceable u files.all)
    (hreplaced : u.Replaced v [(files.proof, bs), (files.root, (hex ++ "\n").toUTF8.toList)])
    (hpk : u.Stores files.provingKey ProvingKey.decode pk)
    (hvk : u.Stores files.verificationKey VerificationKey.decode vk)
    (hpair : KeyPair M cs.reread s polys pk vk) (hdecode : Proof.decode bs = .ok proof)
    (hhex : bitsToHex? (bitEntries root) = .ok hex) (hinputs : vk.numPublicInputs = root.length)
    (haccept : verify vk (root.map bitScalar) proof = .ok true) :
    files.Keyed M cs v ∧ files.Proven P Q root v := by
  have hkeep : ∀ p ∈ [files.provingKey, files.verificationKey], ∀ data,
      u.read p = .ok data → v.read p = .ok data := fun p hp _ =>
    hreplaced.updates.read_eq_ok fun q hq => files.place_ne hR hp hq
  have hpk' := hpk.of_read (hkeep _ (by simp))
  have hvk' := hvk.of_read (hkeep _ (by simp))
  have hread := hreplaced.content
  simp only [List.mem_cons, List.not_mem_nil, or_false, forall_eq_or_imp, forall_eq] at hread
  exact ⟨⟨s, polys, pk, vk, hpk', hvk', hpair⟩,
    vk, proof, hex, hvk', ⟨bs, hread.1, hdecode⟩, hread.2, hhex, hinputs, haccept⟩

end Artifacts

end Contents

namespace Workflow

variable {σ P Q T : Type} [ScalarSource σ] [PointGroup P] [PointGroup Q] [Pairing P Q T]
  [PointCodec P] [PointCodec Q]
variable {A B U : Type} [AddCommGroup A] [AddCommGroup B] [CommGroup U]

/-- The gadget of the configuration is known and complete, the configuration names all artifacts,
and the proof system is the one of this library. -/
structure Serves (w : Workflow (Session σ P Q) P Q) (gadget : HashGadget)
    (hash : List Bool → List Bool → List Bool) (files : Artifacts) : Prop where
  backend : w.backend = .groth16
  find_gadget : w.gadgets.find w.config.hashGadget = .ok gadget
  complete : gadget.Complete hash
  provingKey : w.config.provingKeyPath? = some files.provingKey
  verificationKey : w.config.verificationKeyPath? = some files.verificationKey
  proof : w.config.proofPath? = some files.proof
  root : w.config.rootPath? = some files.root

variable {w : Workflow (Session σ P Q) P Q} {gadget : HashGadget}
  {hash : List Bool → List Bool → List Bool} {files : Artifacts}
  {session : Session σ P Q} {world : World} {circuit : MerkleCircuit} {board : Board}

omit [PointCodec P] [PointCodec Q] in
theorem Serves.gadget_bind {β : Type} (hw : w.Serves gadget hash files)
    {f : HashGadget → WorkflowM (Session σ P Q) (Faulty (StateM Volume)) β}
    {post : Except WorkflowError β → Session σ P Q → World → Prop}
    (hok : Ends (f gadget) session world post) :
    Ends (w.gadget >>= f) session world post := by
  refine Ends.ofExcept_bind (fun e he => ?_) fun found hfound => ?_
  · exact nomatch hw.find_gadget.symm.trans he
  · obtain rfl : gadget = found := Except.ok.inj (hw.find_gadget.symm.trans hfound)
    exact hok

omit [PointCodec P] [PointCodec Q] in
theorem Serves.layOut_bind {β : Type} (hw : w.Serves gadget hash files)
    (hcircuit : circuitOf gadget w.config.treeDepth = .ok (circuit, board))
    {f : MerkleCircuit × Board → WorkflowM (Session σ P Q) (Faulty (StateM Volume)) β}
    {post : Except WorkflowError β → Session σ P Q → World → Prop}
    (herror : ∀ e, post (.error e) session world)
    (hok : Ends (f (circuit, board)) session world post) :
    Ends (w.layOut >>= f) session world post := by
  apply Ends.bind
  rw [layOut]
  refine hw.gadget_bind (Ends.if_bind (fun _ => herror _) fun _ => ?_)
  rw [hcircuit]
  exact hok

variable {M : Pairing.Model P Q T A B U}

/-- **Setup** either makes a pair of keys for the circuit or leaves all files as they are. -/
theorem Serves.ends_setup (hw : w.Serves gadget hash files)
    (hcircuit : circuitOf gadget w.config.treeDepth = .ok (circuit, board))
    (hfirst : M.first.ReadsBack) (hsecond : M.second.ReadsBack) (hsession : session.Honest)
    (hR : Replaceable world.2 files.all) :
    Ends w.setup session world fun result _ w' => Replaceable w'.2 files.all ∧
      match result with
      | .ok _ => files.Keyed M board.system w'.2
      | .error _ => world.2.KeepsFiles w'.2 := by
  have hsame : Replaceable world.2 files.all ∧ world.2.KeepsFiles world.2 := ⟨hR, fun _ _ h => h⟩
  rw [setup, hw.backend]
  refine hw.layOut_bind hcircuit (fun _ => hsame) ?_
  dsimp only
  refine Ends.onState_bind (fun _ _ _ => hsame) fun keys s' hkeys => ?_
  obtain ⟨pk, vk⟩ := keys
  refine Ends.ofExcept_bind (fun _ _ => hsame) fun pkBytes hpk => ?_
  refine Ends.ofExcept_bind (fun _ _ => hsame) fun vkBytes hvk => ?_
  refine Ends.located_bind hw.provingKey (Ends.located_bind hw.verificationKey ?_)
  have hsub : ([(files.provingKey, pkBytes), (files.verificationKey, vkBytes)].map Prod.fst).Sublist
      files.all := by simp [Artifacts.all]
  refine Ends.replace_bind hR hsub (fun e w' hR' hkeeps => ⟨hR', hkeeps⟩) fun w' hR' hreplaced => ?_
  obtain ⟨s, polys, hpair⟩ := hsession.exists_keyPair M hkeys
  obtain ⟨pk', vk', hpk', hvk', hpair'⟩ := hpair.exists_decode_eq hfirst hsecond hpk hvk
  have hread := hreplaced.content
  simp only [List.mem_cons, List.not_mem_nil, or_false, forall_eq_or_imp, forall_eq] at hread
  exact Ends.pure
    ⟨hR', s, polys, pk', vk', ⟨pkBytes, hread.1, hpk'⟩, ⟨vkBytes, hread.2, hvk'⟩, hpair'⟩

/-- A proof from the wires of a circuit, with a key that was read back, is accepted for the root by
the other key once it is read back itself. -/
theorem exists_accepted {s : Secrets} {polys : Sides (List Fr)}
    {pk : ProvingKey P Q} {vk : VerificationKey P Q}
    (hpair : KeyPair M board.system.reread s polys pk vk) (hfirst : M.first.ReadsBack)
    (hsecond : M.second.ReadsBack) {final : Board} {root : List Bool}
    (hsystem : final.system = board.system) (hwitnessed : circuit.Witnessed gadget root final)
    {session' : Session σ P Q} {proof : Proof P Q} {bs : Bytes}
    (hprove : (Backend.groth16.prove pk final.primaryInput final.auxiliaryInput).run session
      = (.ok proof, session')) (hencode : proof.encode = .ok bs) :
    ∃ proof', Proof.decode bs = .ok proof' ∧ vk.numPublicInputs = root.length
      ∧ Groth16.verify vk (root.map bitScalar) proof' = .ok true := by
  have hready := hwitnessed.ready
  have hprimary : final.primaryInput.length = board.system.reread.primarySize := by
    rw [hready.length_primaryInput, hsystem]
    rfl
  have hauxiliary : final.auxiliaryInput.length = board.system.reread.auxiliarySize := by
    rw [hready.length_auxiliaryInput, hsystem]
    rfl
  have hsatisfied : board.system.reread.Satisfied
      (wireValues (1 :: (final.primaryInput ++ final.auxiliaryInput))) := by
    rw [ConstraintSystem.satisfied_reread_iff, ← hsystem]
    exact hready.satisfied hwitnessed.holds
  obtain ⟨proof', hdecode, haccept⟩ := hpair.exists_proof_decode_eq hfirst hsecond hprimary
    hauxiliary hsatisfied (Backend.prove_of_run_groth16 hprove) hencode
  rw [hwitnessed.primaryInput_eq] at hprimary haccept
  refine ⟨proof', hdecode, ?_, haccept⟩
  rw [VerificationKey.numPublicInputs, hpair.length_ic, ← hprimary, List.length_map,
    Nat.add_sub_cancel]

/-- **Proving** either leaves all files as they are or, when the keys are a pair for the circuit,
leaves these and a proof that is accepted. -/
theorem Serves.ends_prove (hw : w.Serves gadget hash files)
    (hcircuit : circuitOf gadget w.config.treeDepth = .ok (circuit, board))
    (hassign : Assignable gadget hash w.config.treeDepth circuit board)
    (hfirst : M.first.ReadsBack) (hsecond : M.second.ReadsBack)
    (hR : Replaceable world.2 files.all) (leaves : List Leaf) :
    Ends (w.prove leaves) session world fun result _ w' => Replaceable w'.2 files.all ∧
      match result with
      | .ok _ => files.Keyed M board.system world.2 → files.Keyed M board.system w'.2 ∧
          ∃ root, RootAbove gadget hash w.config.treeDepth leaves root ∧ files.Proven P Q root w'.2
      | .error _ => world.2.KeepsFiles w'.2 := by
  have hsame : Replaceable world.2 files.all ∧ world.2.KeepsFiles world.2 := ⟨hR, fun _ _ h => h⟩
  have hpkPath := (files.checked?_eq hR).1
  rw [prove, hw.backend]
  refine Ends.unless_bind (fun _ => hsame) fun hcount => ?_
  refine hw.gadget_bind (Ends.located_bind hw.provingKey ?_)
  refine Ends.readArtifact_bind hpkPath (fun _ _ => hsame) fun pk hpk => ?_
  refine Ends.ofExcept_bind (fun _ _ => hsame) fun entries hdigests => ?_
  refine hw.layOut_bind hcircuit (fun _ => hsame) ?_
  refine Ends.unless_bind (fun _ => hsame) fun _ => ?_
  -- from here on only the proof system, the text of the root and the disk can fail
  obtain ⟨digests, hlength, hbits, rfl⟩ := Leaf.exists_of_mapM_digest?_eq hdigests
  have hleaves : digests.length = 2 ^ w.config.treeDepth := by
    rw [hlength, (w.config.hasLeaves_iff _).mp hcount, Config.numLeaves, Nat.one_shiftLeft]
  obtain ⟨final, hwitness, hsystem, hwitnessed⟩ := hassign digests hleaves hbits
  rw [hwitness]
  refine Ends.ofExcept_bind (fun _ _ => hsame) fun result hresult => ?_
  obtain rfl := Except.ok.inj hresult
  dsimp only
  rw [hwitnessed.firstUnsatisfied?_eq]
  refine Ends.ofExcept_bind (fun _ _ => hsame) fun violated hviolated => ?_
  obtain rfl := Except.ok.inj hviolated
  dsimp only
  refine Ends.onState_bind (fun _ _ _ => hsame) fun proof s' hproof => ?_
  refine Ends.ofExcept_bind (fun _ _ => hsame) fun proofBytes hencode => ?_
  refine Ends.ofExcept_bind (fun _ _ => hsame) fun hex hhex => ?_
  refine Ends.located_bind hw.proof (Ends.located_bind hw.root ?_)
  have hsub : ([(files.proof, proofBytes), (files.root, (hex ++ "\n").toUTF8.toList)].map
      Prod.fst).Sublist files.all := by simp [Artifacts.all]
  refine Ends.replace_bind hR hsub (fun e w' hR' hkeeps => ⟨hR', hkeeps⟩) fun w' hR' hreplaced => ?_
  refine Ends.pure ⟨hR', fun hkeyed => ?_⟩
  obtain ⟨s, polys, pk', vk, hpk', hvk, hpair⟩ := hkeyed
  obtain rfl := hpk.eq hpk'
  obtain ⟨proof', hdecode, hinputs, haccept⟩ :=
    exists_accepted hpair hfirst hsecond hsystem hwitnessed hproof hencode
  obtain ⟨hkeyed, hproven⟩ := Artifacts.keyed_and_proven_of_replaced hR hreplaced hpk hvk hpair
    hdecode hhex hinputs haccept
  exact ⟨hkeyed, _, ⟨digests, hdigests, rfl⟩, hproven⟩

/-- Verifying changes no file. -/
theorem Serves.ends_verify (hw : w.Serves gadget hash files) (hR : Replaceable world.2 files.all)
    (leaf : Option String) : Ends (w.verify leaf) session world fun _ _ w' => w' = world := by
  obtain ⟨-, hvkPath, hproofPath, hrootPath⟩ := files.checked?_eq hR
  rw [verify]
  refine Ends.located_bind hw.verificationKey ?_
  refine Ends.readArtifact_bind hvkPath (fun _ _ => rfl) fun vk _ => ?_
  refine Ends.located_bind hw.proof ?_
  refine Ends.readArtifact_bind hproofPath (fun _ _ => rfl) fun proof _ => ?_
  refine Ends.located_bind hw.root ?_
  refine Ends.readBytes_bind hrootPath (fun _ _ => rfl) fun bytes _ => ?_
  refine Ends.ofExcept_bind (fun _ _ => rfl) fun _ _ => ?_
  exact Ends.onState_bind (fun _ _ _ => rfl) fun _ _ _ => Ends.pure rfl

/-- **Verifying** accepts a proof that can be read for the root that can be read. -/
theorem Serves.ends_verify_of_proven (hw : w.Serves gadget hash files)
    (hR : Replaceable world.2 files.all) {root : List Bool}
    (hproven : files.Proven P Q root world.2) {text : String}
    (htext : bitsToHex? (bitEntries root) = .ok text) (leaf : Option String) :
    Ends (w.verify leaf) session world fun result _ _ => result = .ok ⟨true, text, leaf⟩ := by
  obtain ⟨-, hvkPath, hproofPath, hrootPath⟩ := files.checked?_eq hR
  obtain ⟨vk, proof, hex, hvk, hproof, hroot, hhex, hinputs, haccept⟩ := hproven
  obtain rfl : hex = text := Except.ok.inj (hhex.symm.trans htext)
  rw [verify, hw.backend]
  refine Ends.located_bind hw.verificationKey ?_
  refine Ends.readArtifact_bind hvkPath (fun _ h => absurd hvk (h vk)) fun vk' hvk' => ?_
  obtain rfl := hvk.eq hvk'
  refine Ends.located_bind hw.proof ?_
  refine Ends.readArtifact_bind hproofPath (fun _ h => absurd hproof (h proof))
    fun proof' hproof' => ?_
  obtain rfl := hproof.eq hproof'
  refine Ends.located_bind hw.root ?_
  refine Ends.readBytes_bind hrootPath (fun _ h => absurd hroot (h _)) fun bytes hbytes => ?_
  obtain rfl := Except.ok.inj (hroot.symm.trans hbytes)
  rw [hinputs, readRoot_eq hhex]
  refine Ends.ofExcept_bind (fun _ h => nomatch h) fun result hresult => ?_
  obtain rfl := Except.ok.inj hresult
  dsimp only
  rw [Digest.map_ofInt_bitEntries]
  refine Ends.onState_bind (fun e s' h => ?_) fun accepted s' h => ?_
  · rw [Backend.run_verify_groth16 haccept] at h
    cases h
  · rw [Backend.run_verify_groth16 haccept] at h
    cases h
    exact Ends.pure rfl

end Workflow

end MerkleSnark

import Mathlib
import MerkleSnark.Disk.Volume
import MerkleSnark.Proofs.Codec.Canonical
import MerkleSnark.Proofs.Codec.Hex
import MerkleSnark.Proofs.Curve.MultiExp
import MerkleSnark.Workflow.Phase

/-!
# Verifying comes to a verdict

What the loaders accept is enough for everything that follows: the points are on their curves, a key
has an entry for the constant wire, and the text of the root has the number of bits that the key
asks for.  So verifying either names a file that cannot be used, or says yes or no.  The files need
not have been made together, and not by this program.

## Main definitions

* `Disk.Answers` — a disk that reads from its state.
* `WorkflowM.ended`, `WorkflowM.Yields` — the end of a run, and that of one that only looks.
* `Workflow.Judges` — a workflow that verifies with this proof system.
* `Workflow.Judgeable` — the files that verifying can use.

## Main results

* `Groth16.exists_verify_eq_of_wellFormed` — well-formed keys and proofs can be judged.
* `Workflow.verify_runs` — verifying fails just when a file cannot be used.
-/

namespace MerkleSnark

open Groth16

/-! ### Points on the curves are judged -/

/-- Points on their curves can be paired. -/
theorem Ate.exists_miller_eq {q : G2} {p : G1} (hq : q.OnCurve G2.coefficient)
    (hp : p.OnCurve G1.coefficient) : ∃ f, miller q p = .ok f := by
  rw [miller, if_neg (not_not.mpr hq), if_neg (not_not.mpr hp)]
  split
  · exact ⟨1, rfl⟩
  · exact ⟨millerLoop q p, rfl⟩

/-- A product of pairings that exist exists. -/
theorem exists_pairingProductIsOne_eq_of_miller {P Q T : Type} [Pairing P Q T]
    {pairs : List (Q × P)} (h : ∀ pair ∈ pairs, ∃ t : T, Pairing.miller pair.1 pair.2 = .ok t) :
    ∃ isOne, pairingProductIsOne pairs = .ok isOne := by
  suffices hfold : ∀ acc : T, ∃ product, pairs.foldlM (fun acc pair => do
      return Pairing.mul P Q acc (← Pairing.miller pair.1 pair.2)) acc
        = Except.ok (ε := PairingError) product by
    obtain ⟨product, hproduct⟩ := hfold (Pairing.one P Q)
    exact ⟨Pairing.isUnit P Q product, by rw [pairingProductIsOne, hproduct]; rfl⟩
  induction pairs with
  | nil => exact fun acc => ⟨acc, rfl⟩
  | cons pair pairs ih =>
    obtain ⟨⟨t, ht⟩, hpairs⟩ := List.forall_mem_cons.mp h
    intro acc
    rw [List.foldlM_cons, ht]
    exact ih hpairs _

/-- **A well-formed key and a well-formed proof can be judged** for as many inputs as the key asks
for. -/
theorem Groth16.exists_verify_eq_of_wellFormed {vk : VerificationKey G1 G2} {proof : Proof G1 G2}
    (hvk : vk.WellFormed) (hproof : proof.WellFormed) (inputs : List Fr)
    (hinputs : inputs.length = vk.numPublicInputs) :
    ∃ accepted, verify vk inputs proof = .ok accepted := by
  -- the entry of the constant wire is what the commitment starts with
  obtain ⟨constant, rest, hic⟩ := List.exists_cons_of_ne_nil hvk.ic_ne_nil
  obtain ⟨hconstant, hrest⟩ := List.forall_mem_cons.mp (hic ▸ hvk.ic)
  have hlength : rest.length = inputs.length := by
    rw [hinputs, VerificationKey.numPublicInputs, hic]
    rfl
  obtain ⟨sum, hsum, hsumOn, -⟩ := exists_multiExp_eq (L := G1.model) hlength hrest
  have hcommitted : commitment? vk inputs = .ok (PointGroup.add constant sum) := by
    rw [commitment?, hic]
    change ((multiExp rest inputs).map _).mapError _ = _
    rw [hsum]
    rfl
  have hcommittedOn := (G1.model.add hconstant hsumOn).1
  -- adding and negating keeps points on the curve, so none of the four pairs is refused
  have hpaired : ∀ pair ∈ [(proof.b, proof.a), (vk.beta, PointGroup.neg vk.alpha),
      (vk.gamma, PointGroup.neg (PointGroup.add constant sum)),
      (vk.delta, PointGroup.neg proof.c)], ∃ f, Ate.miller pair.1 pair.2 = .ok f := by
    simp only [List.forall_mem_cons, List.not_mem_nil, false_implies, implies_true, and_true]
    exact ⟨Ate.exists_miller_eq hproof.b hproof.a,
      Ate.exists_miller_eq hvk.beta (G1.model.neg hvk.alpha).1,
      Ate.exists_miller_eq hvk.gamma (G1.model.neg hcommittedOn).1,
      Ate.exists_miller_eq hvk.delta (G1.model.neg hproof.c).1⟩
  obtain ⟨isOne, hisOne⟩ := exists_pairingProductIsOne_eq_of_miller hpaired
  refine ⟨isOne, ?_⟩
  rw [verify, hcommitted]
  change (pairingProductIsOne _).mapError _ = _
  rw [hisOne]
  rfl

/-! ### The text of a root -/

namespace Workflow

variable (path : Path) {size : ℕ} {bytes : Bytes}

/-- Of a text in ASCII all but the blanks at its ends is read. -/
theorem readRoot_of_asciiText? (size : ℕ) {chars : List Char} (h : asciiText? 0 bytes = .ok chars) :
    readRoot path size bytes
      = ((hexToBits? (String.ofList (Text.trim Text.isBlank chars)) size).mapError
          fun e => .artifact path (.notRoot e)).map
        (Prod.mk (String.ofList (Text.trim Text.isBlank chars))) := by
  unfold readRoot
  rw [h]
  simp only [Except.mapError, bind, Except.bind]
  cases hexToBits? (String.ofList (Text.trim Text.isBlank chars)) size with
  | error e => rfl
  | ok bits => rfl

/-- A root that is spelled is read as its bits. -/
theorem exists_readRoot_eq (h : SpellsRoot size bytes) :
    ∃ text bits, readRoot path size bytes = .ok (text, bits) ∧ bits.length = size := by
  obtain ⟨hascii, hlength, hhex⟩ := h
  have hroot := readRoot_of_asciiText? path size (asciiText?_eq_ok_iff.mpr ⟨hascii, rfl⟩)
  rw [hexToBits?_ofList_trim, if_neg (not_not.mpr (by exact_mod_cast hlength)),
    if_pos (List.all_eq_true.mpr hhex)] at hroot
  exact ⟨_, _, hroot, (length_flatMap_nibbleBits _).trans hlength⟩

/-- Any other root is refused with the path that it was read from. -/
theorem exists_readRoot_eq_error (h : ¬ SpellsRoot size bytes) :
    ∃ cause, readRoot path size bytes = .error (.artifact path cause) := by
  cases hascii : asciiText? 0 bytes with
  | error cause => exact ⟨cause, by rw [readRoot, hascii]; rfl⟩
  | ok chars =>
    obtain ⟨hall, rfl⟩ := asciiText?_eq_ok_iff.mp hascii
    have hbits : ∃ cause, hexToBits? (String.ofList (Text.trim Text.isBlank
        (bytes.map fun b => Char.ofNat b.toNat))) size = .error cause := by
      rw [hexToBits?_ofList_trim]
      split_ifs with hlength hhex
      · exact ⟨_, rfl⟩
      · exact absurd ⟨hall, by exact_mod_cast not_not.mp hlength, List.all_eq_true.mp hhex⟩ h
      · exact ⟨_, rfl⟩
    obtain ⟨cause, hcause⟩ := hbits
    refine ⟨.notRoot cause, ?_⟩
    rw [readRoot_of_asciiText? path size hascii, hcause]
    rfl

end Workflow

/-! ### Runs that only look -/

/-- A disk reads from its state and does not change it by that.  A read may be refused for any
reason. -/
def Disk.Answers {τ : Type} [Disk (StateM τ)] (answers : τ → Path → Except OsError Bytes) : Prop :=
  ∀ p v, (Disk.read p : ExceptT OsError (StateM τ) Bytes).run v = (answers v p, v)

/-- A volume in memory does so. -/
theorem Volume.answers_read : Disk.Answers Volume.read := fun _ _ => rfl

namespace WorkflowM

variable {σ τ α β ε : Type} {s : σ} {v : τ} {p : Path}

/-- What comes of a run, with the state of the backend and the disk after it. -/
def ended (x : WorkflowM σ (StateM τ) α) (s : σ) (v : τ) : (Except WorkflowError α × σ) × τ :=
  (x.run.run s).run v

theorem ended_bind (x : WorkflowM σ (StateM τ) α) (f : α → WorkflowM σ (StateM τ) β) (s : σ)
    (v : τ) :
    ended (x >>= f) s v =
      match ended x s v with
      | ((.ok a, s'), v') => ended (f a) s' v'
      | ((.error e, s'), v') => ((.error e, s'), v') := by
  change ((x.run.run s >>= fun e => (ExceptT.bindCont f e.1).run e.2).run v) = _
  rw [StateT.run_bind]
  change (StateT.run ((ExceptT.bindCont f (ended x s v).1.1).run (ended x s v).1.2)
    (ended x s v).2) = _
  rcases ended x s v with ⟨⟨_ | _, s'⟩, v'⟩ <;> rfl

/-- A run ends in a result and leaves the state of the backend and the disk as they are. -/
def Yields (x : WorkflowM σ (StateM τ) α) (s : σ) (v : τ) (result : Except WorkflowError α) :
    Prop := ended x s v = ((result, s), v)

namespace Yields

variable {x : WorkflowM σ (StateM τ) α} {f : α → WorkflowM σ (StateM τ) β} {a : α}

/-- A run has one end. -/
theorem unique {r r' : Except WorkflowError α} (h : Yields x s v r) (h' : Yields x s v r') :
    r = r' := congrArg (fun e => e.1.1) (h.symm.trans h')

theorem bind {r : Except WorkflowError β} (hx : Yields x s v (.ok a)) (hf : Yields (f a) s v r) :
    Yields (x >>= f) s v r := by
  rw [Yields, ended_bind, hx]
  exact hf

theorem bind_error {e : WorkflowError} (hx : Yields x s v (.error e)) :
    Yields (x >>= f) s v (.error e) := by
  rw [Yields, ended_bind, hx]

theorem ofExcept (g : ε → WorkflowError) (r : Except ε α) :
    Yields (ofExcept g r) s v (r.mapError g) := rfl

theorem located {path : Option Path} (h : path = some p) :
    Yields (located path) s v (.ok p) := by
  subst h
  rfl

theorem onState {g : ε → WorkflowError} {y : StateM σ (Except ε α)} {r : Except ε α}
    (h : y.run s = (r, s)) : Yields (onState g y) s v (r.mapError g) := by
  change (pure ((y.run s).1.mapError g, (y.run s).2) : StateM τ _).run v = _
  rw [h]
  rfl

variable [Disk (StateM τ)] {answers : τ → Path → Except OsError Bytes}

theorem readBytes (hdisk : Disk.Answers answers) (hp : p.checked? = .ok p) :
    Yields (readBytes p) s v ((answers v p).mapError (readFailure p)) := by
  have hchecked := ofExcept (s := s) (v := v) WorkflowError.badPath p.checked?
  rw [hp] at hchecked
  unfold WorkflowM.readBytes
  rw [hp]
  refine bind hchecked ?_
  change ((Disk.read p : ExceptT OsError (StateM τ) Bytes).run >>= fun r =>
    (pure (r.mapError (readFailure p), s) : StateM τ _)) v = _
  change (fun read : Except OsError Bytes × τ => ((read.1.mapError (readFailure p), s), read.2))
    ((Disk.read p : ExceptT OsError (StateM τ) Bytes).run v) = _
  rw [hdisk]

/-- A refused read is a failure of the file. -/
theorem exists_readBytes_error (hdisk : Disk.Answers answers) (hp : p.checked? = .ok p)
    {refusal : OsError} (h : answers v p = .error refusal) :
    ∃ cause, Yields (WorkflowM.readBytes p) s v (.error (.artifact p cause)) := by
  have hyields := readBytes (s := s) (v := v) hdisk hp
  rw [h] at hyields
  cases refusal <;> exact ⟨_, hyields⟩

end Yields

end WorkflowM

/-- A file holds bytes from which a value can be read. -/
def Disk.Stored {α : Type} (reading : Path → Except OsError Bytes) (p : Path)
    (decode : Bytes → Except DecodeError α) (a : α) : Prop :=
  ∃ bytes, reading p = .ok bytes ∧ decode bytes = .ok a

namespace WorkflowM.Yields

variable {σ τ α : Type} {s : σ} {v : τ} {p : Path} {decode : Bytes → Except DecodeError α}
  [Disk (StateM τ)] {answers : τ → Path → Except OsError Bytes}

theorem readArtifact (hdisk : Disk.Answers answers) (hp : p.checked? = .ok p) {a : α}
    (h : Disk.Stored (answers v) p decode a) :
    Yields (readArtifact p decode) s v (.ok a) := by
  obtain ⟨bytes, hread, hdecode⟩ := h
  have hbytes := readBytes (s := s) (v := v) hdisk hp
  rw [hread] at hbytes
  refine bind hbytes ?_
  rw [hdecode]
  exact ofExcept _ _

/-- A file from which no value can be read is named. -/
theorem exists_readArtifact_error (hdisk : Disk.Answers answers) (hp : p.checked? = .ok p)
    (h : ∀ a, ¬ Disk.Stored (answers v) p decode a) :
    ∃ cause, Yields (WorkflowM.readArtifact p decode) s v (.error (.artifact p cause)) := by
  cases hread : answers v p with
  | error refusal =>
    obtain ⟨cause, hcause⟩ := exists_readBytes_error (s := s) hdisk hp hread
    exact ⟨cause, hcause.bind_error⟩
  | ok bytes =>
    have hbytes := readBytes (s := s) (v := v) hdisk hp
    rw [hread] at hbytes
    cases hdecode : decode bytes with
    | ok a => exact absurd ⟨bytes, hread, hdecode⟩ (h a)
    | error cause =>
      refine ⟨.malformed cause, bind hbytes ?_⟩
      rw [hdecode]
      exact ofExcept _ _

end WorkflowM.Yields

/-! ### Verifying -/

namespace Workflow

open WorkflowM

variable {σ τ : Type} [ScalarSource σ] [Disk (StateM τ)]
  {answers : τ → Path → Except OsError Bytes}

/-- Verifying is done with the proof system of this library and the files at three paths that a
system takes. -/
structure Judges (w : Workflow (Session σ G1 G2) G1 G2) (keyPath proofPath rootPath : Path) :
    Prop where
  backend : w.backend = .groth16
  key : w.config.verificationKeyPath? = some keyPath
  proof : w.config.proofPath? = some proofPath
  root : w.config.rootPath? = some rootPath
  checked_key : keyPath.checked? = .ok keyPath
  checked_proof : proofPath.checked? = .ok proofPath
  checked_root : rootPath.checked? = .ok rootPath

/-- All three files can be read, two of them are loaded as a verification key and a proof, and the
bytes of the third spell a root of as many bits as the key has public inputs. -/
def Judgeable (reading : Path → Except OsError Bytes) (keyPath proofPath rootPath : Path) : Prop :=
  ∃ (vk : VerificationKey G1 G2) (pf : Proof G1 G2) (bytes : Bytes),
    Disk.Stored reading keyPath VerificationKey.decode vk
      ∧ Disk.Stored reading proofPath Proof.decode pf
      ∧ reading rootPath = .ok bytes ∧ SpellsRoot vk.numPublicInputs bytes

/-- What is left of verifying once the key and the proof are loaded. -/
def judgeRoot (w : Workflow (Session σ G1 G2) G1 G2) (leaf : Option String) (rootPath : Path)
    (vk : VerificationKey G1 G2) (pf : Proof G1 G2) :
    WorkflowM (Session σ G1 G2) (StateM τ) Verdict := do
  let rootBytes ← .readBytes rootPath
  let (rootHex, bits) ← .ofExcept id (readRoot rootPath vk.numPublicInputs rootBytes)
  let verified ← .onState (.backend .verify)
    (w.backend.verify vk (bits.map (Residue.ofInt scalarOrder)) pf)
  return ⟨verified, rootHex, leaf⟩

variable {w : Workflow (Session σ G1 G2) G1 G2} {keyPath proofPath rootPath : Path}
  {leaf : Option String} {session : Session σ G1 G2} {v : τ} {vk : VerificationKey G1 G2}
  {pf : Proof G1 G2}

namespace Judges

/-- With a key and a proof verifying ends as the judgement of the root does. -/
theorem yields_of_judgeRoot (hw : w.Judges keyPath proofPath rootPath)
    (hdisk : Disk.Answers answers)
    (hvk : Disk.Stored (answers v) keyPath VerificationKey.decode vk)
    (hpf : Disk.Stored (answers v) proofPath Proof.decode pf) {r : Except WorkflowError Verdict}
    (h : Yields (w.judgeRoot leaf rootPath vk pf) session v r) :
    Yields (w.verify leaf) session v r := by
  refine (Yields.located hw.key).bind ?_
  refine (Yields.readArtifact hdisk hw.checked_key hvk).bind ?_
  refine (Yields.located hw.proof).bind ?_
  refine (Yields.readArtifact hdisk hw.checked_proof hpf).bind ?_
  exact (Yields.located hw.root).bind h

/-- Files that can be used are judged. -/
theorem exists_yields_ok (leaf : Option String) (session : Session σ G1 G2)
    (hw : w.Judges keyPath proofPath rootPath) (hdisk : Disk.Answers answers)
    (h : Judgeable (answers v) keyPath proofPath rootPath) :
    ∃ verdict, Yields (w.verify leaf) session v (.ok verdict) := by
  obtain ⟨vk, pf, bytes, hvk, hpf, hbytes, hspells⟩ := h
  obtain ⟨text, bits, hroot, hbits⟩ := exists_readRoot_eq rootPath hspells
  -- what the loaders accept is all that judging relies on
  have hvkFormed : vk.WellFormed := by
    obtain ⟨_, -, hdecode⟩ := hvk
    exact (VerificationKey.decode_eq_ok_iff.mp hdecode).wellFormed
  have hpfFormed : pf.WellFormed := by
    obtain ⟨_, -, hdecode⟩ := hpf
    exact (Proof.decode_eq_ok_iff.mp hdecode).wellFormed
  obtain ⟨accepted, haccepted⟩ := exists_verify_eq_of_wellFormed hvkFormed hpfFormed
    (bits.map (Residue.ofInt scalarOrder)) ((List.length_map _).trans hbits)
  have hread := Yields.readBytes (s := session) (v := v) hdisk hw.checked_root
  rw [hbytes] at hread
  refine ⟨⟨accepted, text, leaf⟩, hw.yields_of_judgeRoot hdisk hvk hpf (hread.bind ?_)⟩
  rw [hroot, hw.backend]
  refine (Yields.ofExcept _ _).bind ?_
  refine Yields.bind (a := accepted) ?_ rfl
  refine Yields.onState (r := .ok accepted) ?_
  change ((Groth16.verify vk _ pf).mapError _, session) = _
  rw [haccepted]
  rfl

/-- A root that cannot be used is named once the key and the proof are loaded. -/
theorem exists_judgeRoot_error (leaf : Option String) (session : Session σ G1 G2)
    (pf : Proof G1 G2) (hw : w.Judges keyPath proofPath rootPath) (hdisk : Disk.Answers answers)
    (h : ∀ bytes, answers v rootPath = .ok bytes → ¬ SpellsRoot vk.numPublicInputs bytes) :
    ∃ cause, Yields (w.judgeRoot leaf rootPath vk pf) session v
      (.error (.artifact rootPath cause)) := by
  cases hbytes : answers v rootPath with
  | error refusal =>
    obtain ⟨cause, hcause⟩ :=
      Yields.exists_readBytes_error (s := session) hdisk hw.checked_root hbytes
    exact ⟨cause, hcause.bind_error⟩
  | ok bytes =>
    obtain ⟨cause, hcause⟩ := exists_readRoot_eq_error rootPath (h bytes hbytes)
    have hread := Yields.readBytes (s := session) (v := v) hdisk hw.checked_root
    rw [hbytes] at hread
    refine ⟨cause, hread.bind (Yields.bind_error ?_)⟩
    rw [hcause]
    exact Yields.ofExcept _ _

/-- A file that cannot be used is named. -/
theorem exists_yields_error (leaf : Option String) (session : Session σ G1 G2)
    (hw : w.Judges keyPath proofPath rootPath) (hdisk : Disk.Answers answers)
    (h : ¬ Judgeable (answers v) keyPath proofPath rootPath) :
    ∃ p ∈ [keyPath, proofPath, rootPath], ∃ cause,
      Yields (w.verify leaf) session v (.error (.artifact p cause)) := by
  -- the files are read in this order, and the first that cannot be used ends the run
  by_cases hvk : ∃ vk : VerificationKey G1 G2,
      Disk.Stored (answers v) keyPath VerificationKey.decode vk
  case neg =>
    obtain ⟨cause, hcause⟩ := Yields.exists_readArtifact_error (s := session) hdisk
      hw.checked_key (not_exists.mp hvk)
    exact ⟨keyPath, by simp, cause, (Yields.located hw.key).bind hcause.bind_error⟩
  obtain ⟨vk, hvk⟩ := hvk
  by_cases hpf : ∃ pf : Proof G1 G2, Disk.Stored (answers v) proofPath Proof.decode pf
  case neg =>
    obtain ⟨cause, hcause⟩ := Yields.exists_readArtifact_error (s := session) hdisk
      hw.checked_proof (not_exists.mp hpf)
    refine ⟨proofPath, by simp, cause, (Yields.located hw.key).bind ?_⟩
    refine (Yields.readArtifact hdisk hw.checked_key hvk).bind ?_
    exact (Yields.located hw.proof).bind hcause.bind_error
  obtain ⟨pf, hpf⟩ := hpf
  obtain ⟨cause, hcause⟩ := hw.exists_judgeRoot_error leaf session pf hdisk
    fun bytes hbytes hspells => h ⟨vk, pf, bytes, hvk, hpf, hbytes, hspells⟩
  exact ⟨rootPath, by simp, cause, hw.yields_of_judgeRoot hdisk hvk hpf hcause⟩

end Judges

/-- **Verifying fails just when a file cannot be used**: when one of the three is missing or
unreadable, when the bytes of the key or of the proof are refused by their loader, or when those of
the root do not spell one of the size that the key asks for.  One of the files is named then.  In
all other cases there is a verdict.  So the proof system never fails, whatever points the files
hold. -/
theorem verify_runs (hw : w.Judges keyPath proofPath rootPath) (hdisk : Disk.Answers answers) :
    ((∃ p ∈ [keyPath, proofPath, rootPath], ∃ cause,
        Yields (w.verify leaf) session v (.error (.artifact p cause)))
      ↔ ¬ Judgeable (answers v) keyPath proofPath rootPath)
    ∧ ((∃ verdict, Yields (w.verify leaf) session v (.ok verdict))
      ↔ Judgeable (answers v) keyPath proofPath rootPath)
    ∧ ∀ task reason, (ended (w.verify leaf) session v).1.1 ≠ .error (.backend task reason) := by
  by_cases h : Judgeable (answers v) keyPath proofPath rootPath
  · obtain ⟨verdict, hverdict⟩ := hw.exists_yields_ok leaf session hdisk h
    refine ⟨iff_of_false ?_ (not_not.mpr h), iff_of_true ⟨verdict, hverdict⟩ h, ?_⟩
    · rintro ⟨p, -, cause, hcause⟩
      cases hverdict.unique hcause
    · intro task reason hfails
      rw [hverdict] at hfails
      cases hfails
  · obtain ⟨p, hp, cause, hcause⟩ :=
      hw.exists_yields_error leaf session hdisk h
    refine ⟨iff_of_true ⟨p, hp, cause, hcause⟩ h, iff_of_false ?_ h, ?_⟩
    · rintro ⟨verdict, hverdict⟩
      cases hverdict.unique hcause
    · intro task reason hfails
      rw [hcause] at hfails
      cases hfails

/-! ### A key and a proof at infinity -/

/-- A key for four inputs with nothing but points at infinity. -/
def infiniteKey : VerificationKey G1 G2 :=
  ⟨.infinity, .infinity, .infinity, .infinity, List.replicate 5 .infinity⟩

/-- A proof with nothing but points at infinity. -/
def infiniteProof : Proof G1 G2 := ⟨.infinity, .infinity, .infinity⟩

/-- Bytes of a point at infinity, with a byte for each coordinate byte. -/
def infiniteBytes (count : ℕ) (b : UInt8) : Bytes := infinityFlag :: List.replicate count b

/-- Bytes of the key. -/
def infiniteKeyBytes : Bytes :=
  Spells.header 2 ++ infiniteBytes 64 7 ++ infiniteBytes 128 7 ++ infiniteBytes 128 7
    ++ infiniteBytes 128 7 ++ ([0, 0, 0, 5] ++ (List.replicate 5 (infiniteBytes 64 7)).flatten)

/-- Bytes of the proof. -/
def infiniteProofBytes : Bytes :=
  Spells.header 3 ++ infiniteBytes 64 7 ++ infiniteBytes 128 7 ++ infiniteBytes 64 7

theorem decode_infiniteKeyBytes : VerificationKey.decode infiniteKeyBytes = .ok infiniteKey := by
  have hfirst : G1.Spells (infiniteBytes 64 7) .infinity := G1.spells_infinity 7
  have hsecond : G2.Spells (infiniteBytes 128 7) .infinity := G2.spells_infinity 7
  have hcount : Spells.uint 4 [0, 0, 0, 5] infiniteKey.ic.length := ⟨rfl, by decide⟩
  have hitems : Spells.listOf G1.Spells (List.replicate 5 (infiniteBytes 64 7)).flatten
      infiniteKey.ic :=
    ⟨_, rfl, .cons hfirst (.cons hfirst (.cons hfirst (.cons hfirst (.cons hfirst .nil))))⟩
  have hspells : infiniteKey.Spells infiniteKeyBytes :=
    .mk hfirst hsecond hsecond hsecond (.mk hcount hitems) (List.cons_ne_nil _ _)
  exact VerificationKey.decode_eq_ok_iff.mpr hspells

theorem decode_infiniteProofBytes : Proof.decode infiniteProofBytes = .ok infiniteProof := by
  have hfirst : G1.Spells (infiniteBytes 64 7) .infinity := G1.spells_infinity 7
  have hsecond : G2.Spells (infiniteBytes 128 7) .infinity := G2.spells_infinity 7
  have horder : scalarOrder • (Point.infinity : G2).element G2.coefficient = 0 := by
    rw [Point.element_infinity, smul_zero]
  have hspells : infiniteProof.Spells infiniteProofBytes := .mk hfirst hsecond horder hfirst
  exact Proof.decode_eq_ok_iff.mpr hspells

/-- A volume with the key, the proof and a root. -/
def infiniteVolume (root : Bytes) : Volume where
  entries := [(["v"], .file infiniteKeyBytes), (["p"], .file infiniteProofBytes),
    (["r"], .file root)]

/-- A workflow that finds them there. -/
def infiniteWorkflow : Workflow (Session Cycle G1 G2) G1 G2 where
  gadgets := []
  backend := .groth16
  config :=
    { treeDepth := 1
      treeDepth_pos := Nat.zero_lt_one
      verificationKeyFile := some ⟨.here, ["v"]⟩
      proofFile := some ⟨.here, ["p"]⟩
      rootFile := some ⟨.here, ["r"]⟩ }

theorem judges_infiniteWorkflow :
    infiniteWorkflow.Judges ⟨.here, ["v"]⟩ ⟨.here, ["p"]⟩ ⟨.here, ["r"]⟩ where
  backend := rfl
  key := rfl
  proof := rfl
  root := rfl
  checked_key := rfl
  checked_proof := rfl
  checked_root := rfl

theorem judgeable_infiniteVolume_iff (root : Bytes) :
    Judgeable (infiniteVolume root).read ⟨.here, ["v"]⟩ ⟨.here, ["p"]⟩ ⟨.here, ["r"]⟩
      ↔ SpellsRoot 4 root := by
  have hkey : (infiniteVolume root).read ⟨.here, ["v"]⟩ = .ok infiniteKeyBytes := rfl
  have hproof : (infiniteVolume root).read ⟨.here, ["p"]⟩ = .ok infiniteProofBytes := rfl
  have hroot : (infiniteVolume root).read ⟨.here, ["r"]⟩ = .ok root := rfl
  constructor
  · rintro ⟨vk, -, bytes, ⟨keyBytes, hread, hdecode⟩, -, hbytes, hspells⟩
    obtain rfl := Except.ok.inj (hkey.symm.trans hread)
    obtain rfl := Except.ok.inj (decode_infiniteKeyBytes.symm.trans hdecode)
    obtain rfl := Except.ok.inj (hroot.symm.trans hbytes)
    exact hspells
  · intro hspells
    exact ⟨infiniteKey, infiniteProof, root, ⟨_, hkey, decode_infiniteKeyBytes⟩,
      ⟨_, hproof, decode_infiniteProofBytes⟩, hroot, hspells⟩

/-- A digit for the four bits is judged, with the line break behind it; two digits are refused. -/
theorem verify_runs_infinite :
    infiniteWorkflow.Judges ⟨.here, ["v"]⟩ ⟨.here, ["p"]⟩ ⟨.here, ["r"]⟩
      ∧ Disk.Answers Volume.read
      ∧ (∃ verdict, Yields (infiniteWorkflow.verify none) { source := Cycle.ofList [] }
          (infiniteVolume [102, 10]) (.ok verdict))
      ∧ ∃ p ∈ ([⟨.here, ["v"]⟩, ⟨.here, ["p"]⟩, ⟨.here, ["r"]⟩] : List Path), ∃ cause,
        Yields (infiniteWorkflow.verify none) { source := Cycle.ofList [] }
          (infiniteVolume [102, 102]) (.error (.artifact p cause)) := by
  refine ⟨judges_infiniteWorkflow, Volume.answers_read, ?_, ?_⟩
  · refine (verify_runs judges_infiniteWorkflow Volume.answers_read).2.1.mpr ?_
    exact (judgeable_infiniteVolume_iff _).mpr (by decide)
  · refine (verify_runs judges_infiniteWorkflow Volume.answers_read).1.mpr fun h => ?_
    exact absurd ((judgeable_infiniteVolume_iff _).mp h) (by decide)

end Workflow

end MerkleSnark

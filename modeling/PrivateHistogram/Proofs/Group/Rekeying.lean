import PrivateHistogram.Proofs.Draws
import PrivateHistogram.Proofs.Group.ElGamal
import PrivateHistogram.Proofs.Suites

/-! Secrets applied one after the other. What a ciphertext encrypts is multiplied by each of them, whether an encryption of
    zero is added on the way or not, so only their product counts (`ElGamal.decrypt_of_run`). An operation on a ciphertext
    fails exactly if one of its parts encodes no element (`ElGamal.points_eq_error`). -/

namespace PrivateHistogram

theorem Scalar.residue_prod (list : List Scalar) : list.prod.residue = (list.map residue).prod := by
  induction list with
  | nil => exact residue_one
  | cons s list ih => rw [List.prod_cons, residue_mul, ih, List.map_cons, List.prod_cons]

/-- A product of scalars does not depend on their order. -/
theorem Scalar.prod_of_perm {list list' : List Scalar} (h : list.Perm list') : list.prod = list'.prod :=
  residue_injective (by rw [residue_prod, residue_prod, (h.map residue).prod_eq])

namespace ElGamal

variable {G : KeyGroup} {c c' : Ciphertext} {m : G.Point} {key : PublicKey G}

/-! ### Failures -/

/-- One of the parts of a ciphertext encodes no element. -/
def Undecodable (G : KeyGroup) (c : Ciphertext) : Prop := G.decode? c.c1 = none ∨ G.decode? c.c2 = none

theorem decodePoint_eq_error {o : Octets 32} {e : Error} :
    decodePoint G o = .error e ↔ e = .invalidGroupElement ∧ G.decode? o = none := by
  rw [decodePoint]
  cases G.decode? o with
  | none =>
    rw [and_iff_left rfl, Except.error.injEq]
    exact eq_comm
  | some p =>
    constructor
    · intro h
      cases h
    · rintro ⟨-, h⟩
      cases h

theorem points_eq_error {e : Error} : c.points G = .error e ↔ e = .invalidGroupElement ∧ Undecodable G c := by
  rw [Ciphertext.points, bind_eq_error, decodePoint_eq_error, Undecodable]
  constructor
  · rintro (⟨he, h⟩ | ⟨a, -, h⟩)
    · exact ⟨he, .inl h⟩
    · obtain h | ⟨b, -, h⟩ := bind_eq_error.mp h
      · obtain ⟨he, h⟩ := decodePoint_eq_error.mp h
        exact ⟨he, .inr h⟩
      · cases h
  · rintro ⟨rfl, h⟩
    cases ha : decodePoint G c.c1 with
    | error e =>
      obtain ⟨-, hnone⟩ := decodePoint_eq_error.mp ha
      exact .inl ⟨rfl, hnone⟩
    | ok a =>
      have hfirst : G.decode? c.c1 ≠ none := fun hnone => by
        cases ha.symm.trans (decodePoint_eq_error.mpr ⟨rfl, hnone⟩)
      have hsecond := decodePoint_eq_error.mpr ⟨rfl, h.resolve_left hfirst⟩
      exact .inr ⟨a, rfl, bind_eq_error.mpr (.inl hsecond)⟩

/-- An operation that only computes with the parts fails where they are not decoded, and nowhere else. -/
theorem bind_points_eq_error {α : Type} {f : G.Point × G.Point → α} {e : Error} :
    (c.points G >>= fun p => Except.ok (f p)) = .error e ↔ e = .invalidGroupElement ∧ Undecodable G c := by
  rw [bind_eq_error, points_eq_error]
  refine or_iff_left ?_
  rintro ⟨p, -, h⟩
  cases h

theorem decrypt_eq_error {k : PrivateKey} {e : Error} :
    decrypt G k c = .error e ↔ e = .invalidGroupElement ∧ Undecodable G c :=
  bind_points_eq_error

theorem exponentiate_eq_error {s : Secret} {e : Error} :
    exponentiate G c s = .error e ↔ e = .invalidGroupElement ∧ Undecodable G c :=
  bind_points_eq_error

/-- A ciphertext that has been made is decoded again, so the second half of the operation does not fail. -/
theorem exponentiateAndRerandomize_eq_error (hG : G.Lawful) {s : Secret} {e : Error} {tape : RandomTape} :
    (exponentiateAndRerandomize G c s key tape).1 = .error e ↔ e = .invalidGroupElement ∧ Undecodable G c := by
  rw [← exponentiate_eq_error (s := s), exponentiateAndRerandomize]
  cases hrun : exponentiate G c s with
  | error e' => rfl
  | ok c' =>
    obtain ⟨⟨a, b⟩, -, hc'⟩ := bind_eq_ok.mp hrun
    cases hc'
    constructor
    · intro h
      change rerandomizeWith G _ key _ = _ at h
      rw [rerandomizeWith, points_ofPoints hG] at h
      cases h
    · intro h
      cases h

/-! ### Runs -/

/-- A secret to apply to a ciphertext, and whether an encryption of zero is to be added then. -/
structure Step where
  secret : Secret
  rerandomized : Bool

def Step.run (G : KeyGroup) (key : PublicKey G) (c : Ciphertext) (step : Step) : TryDraw Error Ciphertext :=
  if step.rerandomized then exponentiateAndRerandomize G c step.secret key else exponentiate G c step.secret

/-- An element is encrypted, and then secrets are applied to the ciphertext. -/
def encryptAndRun (G : KeyGroup) (key : PublicKey G) (m : G.Point) (steps : List Step) : TryDraw Error Ciphertext := do
  steps.foldlM (Step.run G key) (← ExceptT.lift (encrypt G key m))

/-- A ciphertext of an element under a key, whatever its nonce. -/
def Encrypts (key : PublicKey G) (m : G.Point) (c : Ciphertext) : Prop := ∃ nonce, c = encryptWith G key m nonce

/-- What is encrypted in the end. -/
def product (steps : List Step) : Scalar := (steps.map fun step => step.secret.scalar).prod

section
variable (hG : G.Lawful)
include hG

theorem Encrypts.decrypt {k : PrivateKey} (h : Encrypts (k.publicKey G) m c) : decrypt G k c = .ok m := by
  obtain ⟨nonce, rfl⟩ := h
  exact decrypt_encryptWith hG k m nonce

theorem Encrypts.step (h : Encrypts key m c) (step : Step) (tape : RandomTape) :
    ∃ c' rest, step.run G key c tape = (.ok c', rest) ∧ Encrypts key (step.secret.apply G m) c' := by
  obtain ⟨nonce, rfl⟩ := h
  rw [Step.run]
  cases step.rerandomized with
  | true =>
    rw [if_pos rfl, exponentiateAndRerandomize_encryptWith hG]
    exact ⟨_, _, rfl, _, rfl⟩
  | false =>
    rw [if_neg Bool.false_ne_true, exponentiate_encryptWith hG]
    exact ⟨_, _, rfl, _, rfl⟩

theorem Encrypts.run (h : Encrypts key m c) (steps : List Step) (tape : RandomTape) :
    ∃ c' rest, steps.foldlM (Step.run G key) c tape = (.ok c', rest) ∧
      Encrypts key (G.multiply (product steps) m) c' := by
  induction steps generalizing m c tape with
  | nil => exact ⟨c, tape, rfl, (hG.one_multiply m).symm ▸ h⟩
  | cons step steps ih =>
    obtain ⟨c₁, rest₁, hrun, hc₁⟩ := h.step hG step tape
    obtain ⟨c', rest, hsteps, hc'⟩ := ih hc₁ rest₁
    rw [Secret.apply, ← hG.mul_multiply, Scalar.mul_comm] at hc'
    exact ⟨c', rest, by rw [List.foldlM_cons, Attempt.bind_of_ok hrun, hsteps], hc'⟩

theorem encryptAndRun_eq (key : PublicKey G) (m : G.Point) (steps : List Step) (tape : RandomTape) :
    ∃ c rest, encryptAndRun G key m steps tape = (.ok c, rest) ∧ Encrypts key (G.multiply (product steps) m) c :=
  Encrypts.run hG ⟨(Scalar.draw tape).1, rfl⟩ steps (Scalar.draw tape).2

/-- Secrets can be applied to an encrypted element one after the other, in any number, some of them with an encryption of
    zero added. Each of these steps succeeds, and in the end the element multiplied by all secrets is decrypted. Neither
    the order of the secrets nor the nonces nor the steps that add an encryption of zero make a difference. On a
    ciphertext that was made otherwise an operation fails exactly if one of its two parts encodes no element. -/
theorem decrypt_of_run (k : PrivateKey) :
    (∀ (m : G.Point) (steps : List Step) (tape : RandomTape),
      ∃ c rest, encryptAndRun G (k.publicKey G) m steps tape = (.ok c, rest) ∧
        decrypt G k c = .ok (G.multiply (steps.map fun step => step.secret.scalar).prod m)) ∧
    (∀ (m : G.Point) (steps steps' : List Step) (tape tape' rest rest' : RandomTape) (c c' : Ciphertext),
      (steps.map Step.secret).Perm (steps'.map Step.secret) →
      encryptAndRun G (k.publicKey G) m steps tape = (.ok c, rest) →
      encryptAndRun G (k.publicKey G) m steps' tape' = (.ok c', rest') → decrypt G k c = decrypt G k c') ∧
    ∀ (c : Ciphertext) (e : Error),
      (decrypt G k c = .error e ↔ e = .invalidGroupElement ∧ Undecodable G c) ∧
      ∀ s : Secret, (exponentiate G c s = .error e ↔ e = .invalidGroupElement ∧ Undecodable G c) ∧
        ∀ (key : PublicKey G) (tape : RandomTape),
          (exponentiateAndRerandomize G c s key tape).1 = .error e ↔ e = .invalidGroupElement ∧ Undecodable G c := by
  refine ⟨fun m steps tape => ?_, ?_, fun c e => ⟨decrypt_eq_error, fun s => ⟨exponentiate_eq_error, fun key tape =>
    exponentiateAndRerandomize_eq_error hG⟩⟩⟩
  · obtain ⟨c, rest, hrun, hc⟩ := encryptAndRun_eq hG (k.publicKey G) m steps tape
    exact ⟨c, rest, hrun, hc.decrypt hG⟩
  · intro m steps steps' tape tape' rest rest' c c' hperm hrun hrun'
    obtain ⟨c₁, rest₁, hrun₁, hc₁⟩ := encryptAndRun_eq hG (k.publicKey G) m steps tape
    obtain ⟨c₂, rest₂, hrun₂, hc₂⟩ := encryptAndRun_eq hG (k.publicKey G) m steps' tape'
    cases hrun.symm.trans hrun₁
    cases hrun'.symm.trans hrun₂
    have hproduct : product steps = product steps' := by
      have := Scalar.prod_of_perm (hperm.map Secret.scalar)
      rwa [List.map_map, List.map_map] at this
    rw [hc₁.decrypt hG, hc₂.decrypt hG, hproduct]

end

theorem decrypt_of_run_additive :
    let k : PrivateKey := ⟨.ofNat 2⟩
    let three : Secret := ⟨.ofNat 3, by decide⟩
    let four : Secret := ⟨.ofNat 4, by decide⟩
    let steps : List Step := [⟨three, true⟩, ⟨four, false⟩]
    let swapped : List Step := [⟨four, true⟩, ⟨three, true⟩]
    let run (steps : List Step) := encryptAndRun .additive (k.publicKey .additive) (.ofNat 7) steps ⟨.ofNat, 0, none⟩
    ∃ c c' rest rest', run steps = (.ok c, rest) ∧ run swapped = (.ok c', rest') ∧
      decrypt .additive k c = .ok (.ofNat 84) ∧ decrypt .additive k c = decrypt .additive k c' := by
  intro k three four steps swapped run
  obtain ⟨hruns, hsame, -⟩ := decrypt_of_run KeyGroup.additive_lawful k
  obtain ⟨c, rest, hrun, hdecrypt⟩ := hruns (.ofNat 7) steps ⟨.ofNat, 0, none⟩
  obtain ⟨c', rest', hrun', -⟩ := hruns (.ofNat 7) swapped ⟨.ofNat, 0, none⟩
  have hproduct : (.ofNat 3 * (.ofNat 4 * 1) * .ofNat 7 : Scalar) = .ofNat 84 := by decide
  have hperm : (steps.map Step.secret).Perm (swapped.map Step.secret) := .swap four three []
  exact ⟨c, c', rest, rest', hrun, hrun', hdecrypt.trans (congrArg Except.ok hproduct),
    hsame _ _ _ _ _ _ _ _ _ hperm hrun hrun'⟩

end ElGamal

end PrivateHistogram

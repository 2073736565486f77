import Mathlib.Data.List.Nodup

/-!
# Ideal authenticated encryption

Everything sealed under a key is recorded. The ideal scheme opens a message exactly if it
is one of these, with the nonce and the associated data it was sealed with. While all
nonces differ, a message that opens is known by its nonce alone.
-/

namespace Aead

variable {ν α π γ : Type*}

structure Sealing (ν α π γ : Type*) where
  nonce : ν
  aad : α
  plaintext : π
  output : γ
  deriving DecidableEq

variable [DecidableEq ν] [DecidableEq α] [DecidableEq γ]
variable {sealed : List (Sealing ν α π γ)} {nonce : ν} {aad : α} {output : γ}
variable {x y : Sealing ν α π γ}

/-- The ideal decryption. -/
def opened (sealed : List (Sealing ν α π γ)) (nonce : ν) (aad : α) (output : γ) :
    Option (Sealing ν α π γ) :=
  sealed.find? fun x => x.nonce = nonce ∧ x.aad = aad ∧ x.output = output

theorem of_opened (h : opened sealed nonce aad output = some x) :
    x ∈ sealed ∧ x.nonce = nonce ∧ x.aad = aad ∧ x.output = output :=
  ⟨List.mem_of_find?_eq_some h, by simpa using List.find?_some h⟩

omit [DecidableEq ν] [DecidableEq α] [DecidableEq γ] in
theorem eq_of_nonce (distinct : (sealed.map Sealing.nonce).Nodup) (hx : x ∈ sealed)
    (hy : y ∈ sealed) (h : x.nonce = y.nonce) : x = y :=
  List.inj_on_of_nodup_map distinct hx hy h

end Aead

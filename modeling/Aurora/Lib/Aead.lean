import Mathlib.Data.List.Basic

/-! Authenticated encryption as a component interface, and its ideal form.
The structure carries only what an implementation promises on honest inputs:
lengths and the round trip. The ideal decryption additionally rejects every
ciphertext that no recorded encryption produced; that record is explicit
state, so unforgeability is a property of a run and not of a function. -/
namespace Lib

structure Aead (tag : Nat) where
  encrypt (key nonce ad message : List UInt8) : List UInt8
  decrypt (key nonce ad cipher : List UInt8) : Option (List UInt8)
  encrypt_length : (encrypt key nonce ad message).length = message.length + tag
  decrypt_length : decrypt key nonce ad cipher = some message → message.length + tag = cipher.length
  decrypt_encrypt : decrypt key nonce ad (encrypt key nonce ad message) = some message

namespace Aead
variable {tag : Nat} (aead : Aead tag)

/-- Under one key, nonce and associated data a ciphertext has one plaintext. -/
theorem encrypt_inj : aead.encrypt key nonce ad message = aead.encrypt key nonce ad other ↔
    message = other := by
  refine ⟨fun same => ?_, fun same => same ▸ rfl⟩
  have opened := congrArg (aead.decrypt key nonce ad) same
  rw [aead.decrypt_encrypt, aead.decrypt_encrypt] at opened
  exact Option.some.inj opened

/-- One past call of `encrypt`, by its inputs. -/
structure Query where
  key : List UInt8
  nonce : List UInt8
  ad : List UInt8
  message : List UInt8
deriving DecidableEq, Repr

def Query.cipher (q : Query) : List UInt8 := aead.encrypt q.key q.nonce q.ad q.message

/-- Decryption that knows which ciphertexts exist. -/
def ideal (log : List Query) (key nonce ad cipher : List UInt8) : Option (List UInt8) :=
  if log.any (fun q => q.key == key && q.nonce == nonce && q.ad == ad && q.cipher aead == cipher)
  then aead.decrypt key nonce ad cipher else none

theorem ideal_some {log : List Query} (accepted : aead.ideal log key nonce ad cipher = some message) :
    ⟨key, nonce, ad, message⟩ ∈ log ∧ cipher = aead.encrypt key nonce ad message := by
  unfold ideal at accepted
  split at accepted
  · rename_i known
    obtain ⟨q, member, same⟩ := List.any_eq_true.mp known
    simp only [Bool.and_eq_true, beq_iff_eq] at same
    obtain ⟨⟨⟨rfl, rfl⟩, rfl⟩, rfl⟩ := same
    have plain : q.message = message := by
      have trip : aead.decrypt q.key q.nonce q.ad (q.cipher aead) = some q.message :=
        aead.decrypt_encrypt
      exact Option.some.inj (trip.symm.trans accepted)
    subst plain
    exact ⟨member, rfl⟩
  · contradiction

theorem ideal_encrypt {log : List Query} (known : ⟨key, nonce, ad, message⟩ ∈ log) :
    aead.ideal log key nonce ad (aead.encrypt key nonce ad message) = some message := by
  have hit : log.any (fun q => q.key == key && q.nonce == nonce && q.ad == ad &&
      q.cipher aead == aead.encrypt key nonce ad message) = true := by
    apply List.any_eq_true.mpr
    refine ⟨_, known, ?_⟩
    simp only [Query.cipher, beq_self_eq_true, Bool.and_self]
  rw [ideal, if_pos hit, aead.decrypt_encrypt]

end Aead

/-- The plaintext followed by a zero tag: the smallest lawful instance. -/
def transparent (tag : Nat) : Aead tag where
  encrypt _ _ _ message := message ++ List.replicate tag 0
  decrypt _ _ _ cipher :=
    if tag ≤ cipher.length ∧ cipher.drop (cipher.length - tag) = List.replicate tag 0
    then some (cipher.take (cipher.length - tag)) else none
  encrypt_length := by simp
  decrypt_length := by
    intro _ _ _ cipher message accepted
    split at accepted
    · rename_i tagged
      cases accepted
      rw [List.length_take]
      omega
    · contradiction
  decrypt_encrypt := by simp

end Lib

import Mathlib.Data.Int.Notation
import Mathlib.Data.List.Basic

/-! The encryption of credentials under the key ring: an envelope is bound to the context of its
credential. The cipher is ideal, and a stored text is known by what base64 and JSON decode it to. -/

namespace SyrocePms.Crypto

abbrev Text := List Char

structure AadContext where
  tenantId : Text := []
  provider : Text := []
  propertyId : Text := []
  environment : Text := []
  contextType : Text := "credential".toList

def AadContext.toBytes (x : AadContext) : Text :=
  x.tenantId ++ '|' :: x.provider ++ '|' :: x.propertyId ++ '|' :: x.environment ++ '|' :: x.contextType

/-- Byte strings: those that the cipher makes, and all others. -/
inductive Bytes
  | sealed (key nonce : ℕ) (plaintext : Text) (aad : Option Text)
  | raw (n : ℕ)
  deriving DecidableEq

/-- `none` is any error of the cipher: all are decryption errors. -/
def Bytes.opened (key : ℕ) (aad : Option Text) : Bytes → Bytes → Option Text
  | .raw nonce, .sealed k n p a => if k = key ∧ n = nonce ∧ a = aad then some p else none
  | _, _ => none

/-- Base64 on the texts of a JSON document. `none` is a `ValueError`. -/
structure Base64 (S : Type) where
  encode : Bytes → S
  decode : S → Option Bytes
  decode_encode : ∀ x, decode (encode x) = some x

/-- A JSON value; of an object, the keys that are read. -/
inductive Json (S : Type)
  | object (v alg kid n ct : Option (Json S))
  | text (s : S)
  | number (x : ℤ)
  | bool (b : Bool)
  | other

/-- A stored text by its prefix, as far as it decodes. -/
inductive Stored (S : Type)
  | envelope (json : Option (Json S))
  | legacy (nonceAndCiphertext : Option (Bytes × Bytes))

inductive Failure
  | envelopeParse
  | keyNotFound
  | decryption
  | attributeError
  | typeError
  | valueError

/-- The subclasses of `CryptoError`. -/
def Failure.isCrypto : Failure → Bool
  | .attributeError | .typeError | .valueError => false
  | _ => true

structure KeyRing (S : Type) where
  current : S × ℕ
  previous : Option (S × ℕ)
  kids_ne : ∀ k ∈ previous, k.1 ≠ current.1

section

variable {S : Type} [DecidableEq S] (B : Base64 S)

def KeyRing.decryptionKey (ring : KeyRing S) : Json S → Except Failure ℕ
  | .text kid =>
    if kid = ring.current.1 then .ok ring.current.2
    else ring.previous.elim (.error .keyNotFound) fun k => if kid = k.1 then .ok k.2 else .error .keyNotFound
  | _ => .error .keyNotFound

/-- In Python, `True` is 1. -/
def Json.isOne : Option (Json S) → Bool
  | some (.number x) => x = 1
  | some (.bool b) => b
  | _ => false

def b64decode : Json S → Except Failure Bytes
  | .text s => (B.decode s).elim (.error .valueError) .ok
  | _ => .error .typeError

def field : Option (Json S) → Except Failure (Json S)
  | some x => .ok x
  | none => .error .envelopeParse

/-- The key identifier, the nonce and the ciphertext of an envelope. -/
def deserialize : Option (Json S) → Except Failure (Json S × Bytes × Bytes)
  | none => .error .envelopeParse
  | some (.object v alg kid n ct) => do
    if Json.isOne v then
      let _ ← field alg
      let kid ← field kid
      let nonce ← b64decode B (← field n)
      let ciphertext ← b64decode B (← field ct)
      .ok (kid, nonce, ciphertext)
    else .error .envelopeParse
  | some _ => .error .attributeError

/-- The service without the bypass. -/
structure Service (S : Type) where
  v2Enabled : Bool
  ring : KeyRing S
  legacyKey : ℕ

variable (svc : Service S)

/-- The envelope of `AESGCMEngine.encrypt`. -/
def KeyRing.seal (ring : KeyRing S) (algorithm : S) (nonce : ℕ) (plaintext : Text) (aad : Option AadContext) : Stored S :=
  .envelope (some (.object (some (.number 1)) (some (.text algorithm)) (some (.text ring.current.1))
    (some (.text (B.encode (.raw nonce))))
    (some (.text (B.encode (.sealed ring.current.2 nonce plaintext (aad.map AadContext.toBytes)))))))

/-- `none` is the error for an empty value. -/
def Service.encrypt (algorithm : S) (nonce : ℕ) (plaintext : Text) (aad : Option AadContext) : Option (Stored S) :=
  if plaintext = [] then none
  else if svc.v2Enabled then some (svc.ring.seal B algorithm nonce plaintext aad)
  else some (.legacy (some (.raw nonce, .sealed svc.legacyKey nonce plaintext none)))

def Service.decrypt (aad : Option AadContext) : Stored S → Except Failure Text
  | .envelope json => do
    let (kid, nonce, ciphertext) ← deserialize B json
    let key ← svc.ring.decryptionKey kid
    (Bytes.opened key (aad.map AadContext.toBytes) nonce ciphertext).elim (.error .decryption) .ok
  | .legacy raw =>
    (raw.bind fun x => Bytes.opened svc.legacyKey none x.1 x.2).elim (.error .decryption) .ok

def Service.reEncrypt (algorithm : S) (nonce : ℕ) (aad : Option AadContext) (x : Stored S) : Except Failure (Stored S) :=
  (svc.decrypt B aad x).map fun plaintext => svc.ring.seal B algorithm nonce plaintext aad

/-! ### Contexts and failures -/

def Refused (r : Except Failure Text) : Prop := ∃ e, r = .error e ∧ e.isCrypto

def FailsClosed (r : Except Failure Text) : Prop := (∃ p, r = .ok p) ∨ Refused r

def contextBytes (a : Option AadContext) : Option Text := a.map AadContext.toBytes

/-- The key that encrypts is the current or the previous one of the later ring. -/
def KeyRing.Keeps (ring later : KeyRing S) : Prop := later.current = ring.current ∨ later.previous = some ring.current

/-- What JSON decodes is an object, with base64 texts where the nonce and the ciphertext are read. -/
def Stored.Readable : Stored S → Prop
  | .legacy _ | .envelope none => True
  | .envelope (some (.object v alg kid n ct)) => Json.isOne v → alg ≠ none → kid ≠ none →
      ∀ x ∈ n, (b64decode B x).isOk ∧ ∀ y ∈ ct, (b64decode B y).isOk
  | .envelope (some _) => False

variable {B} {svc} {later : Service S}

theorem KeyRing.Keeps.decryptionKey {ring later : KeyRing S} (h : ring.Keeps later) :
    later.decryptionKey (.text ring.current.1) = .ok ring.current.2 := by
  rcases h with h | h
  · simp [KeyRing.decryptionKey, h]
  · simp [KeyRing.decryptionKey, h, later.kids_ne _ h]

variable {algorithm : S} {nonce : ℕ} {plaintext : Text} {a b : Option AadContext}

theorem decrypt_seal (h : svc.ring.Keeps later.ring) :
    later.decrypt B b (svc.ring.seal B algorithm nonce plaintext a) =
      if contextBytes a ≠ contextBytes b then .error .decryption else .ok plaintext := by
  have hone : Json.isOne (some (.number 1) : Option (Json S)) = true := rfl
  simp only [KeyRing.seal, Service.decrypt, deserialize, hone, if_true, field, b64decode, B.decode_encode, Option.elim,
    bind, Except.bind, h.decryptionKey, Bytes.opened, contextBytes, true_and]
  by_cases hbytes : a.map AadContext.toBytes = b.map AadContext.toBytes <;> simp [hbytes]

theorem decrypt_encrypt (hring : svc.ring.Keeps later.ring) (hlegacy : later.legacyKey = svc.legacyKey) {x : Stored S}
    (h : svc.encrypt B algorithm nonce plaintext a = some x) :
    later.decrypt B b x = if svc.v2Enabled ∧ contextBytes a ≠ contextBytes b then .error .decryption else .ok plaintext := by
  unfold Service.encrypt at h
  split_ifs at h with hempty hv2
  · cases h
    simp [decrypt_seal hring, hv2]
  · cases h
    simp [Service.decrypt, Bytes.opened, hv2, hlegacy]

/-- Each service has the key of the one before it, current or previous. -/
def Rotates : Service S → List (Service S × ℕ) → Prop
  | _, [] => True
  | svc, (next, _) :: rest => svc.ring.Keeps next.ring ∧ Rotates next rest

/-- A credential that is encrypted again after every rotation stays readable, in its context only. -/
theorem rotations_keep_credentials (svc : Service S) (rotations : List (Service S × ℕ)) (h : Rotates svc rotations)
    (algorithm : S) (nonce : ℕ) (plaintext : Text) (a : Option AadContext) :
    ∃ x, rotations.foldlM (fun x r => r.1.reEncrypt B algorithm r.2 a x) (svc.ring.seal B algorithm nonce plaintext a) = .ok x ∧
      ∀ (later : Service S) b, (rotations.foldl (fun _ r => r.1) svc).ring.Keeps later.ring →
        later.decrypt B b x = if contextBytes a ≠ contextBytes b then .error .decryption else .ok plaintext := by
  induction rotations generalizing svc nonce with
  | nil => exact ⟨_, rfl, fun later b hlater => decrypt_seal hlater⟩
  | cons r rest ih =>
    obtain ⟨x, hx, hread⟩ := ih r.1 h.2 r.2
    refine ⟨x, ?_, hread⟩
    have hre : r.1.reEncrypt B algorithm r.2 a (svc.ring.seal B algorithm nonce plaintext a) =
        .ok (r.1.ring.seal B algorithm r.2 plaintext a) := by
      simp [Service.reEncrypt, decrypt_seal h.1, Except.map]
    rw [List.foldlM_cons, hre]
    exact hx

theorem decryptionKey_error {ring : KeyRing S} {kid : Json S} {e : Failure} (h : ring.decryptionKey kid = .error e) :
    e.isCrypto = true := by
  cases kid with
  | text kid =>
    cases hp : ring.previous <;> simp only [KeyRing.decryptionKey, hp, Option.elim] at h <;> split_ifs at h <;>
      cases h <;> rfl
  | _ => cases h; rfl

theorem failsClosed_parsed (c : Option AadContext) (json : Option (Json S)) :
    FailsClosed (svc.decrypt B c (.envelope json)) ↔ ∀ e, deserialize B json = .error e → e.isCrypto := by
  cases hparse : deserialize B json with
  | error e => simp [FailsClosed, Refused, Service.decrypt, hparse, bind, Except.bind]
  | ok r =>
    simp only [reduceCtorEq, false_imp_iff, implies_true, iff_true, Service.decrypt, hparse, bind, Except.bind]
    cases hkey : svc.ring.decryptionKey r.1 with
    | error e => exact .inr ⟨e, rfl, decryptionKey_error hkey⟩
    | ok key =>
      cases hopen : Bytes.opened key (c.map AadContext.toBytes) r.2.1 r.2.2 with
      | none => exact .inr ⟨.decryption, by simp [hopen], rfl⟩
      | some p => exact .inl ⟨p, by simp [hopen]⟩

omit [DecidableEq S] in
theorem b64decode_cases (x : Json S) :
    (∃ b, b64decode B x = .ok b) ∨ ∃ e, b64decode B x = .error e ∧ e.isCrypto = false := by
  cases x with
  | text s => cases h : B.decode s <;> simp [b64decode, h, Failure.isCrypto]
  | _ => exact .inr ⟨.typeError, rfl, rfl⟩

theorem failsClosed_iff (c : Option AadContext) (x : Stored S) : FailsClosed (svc.decrypt B c x) ↔ x.Readable B := by
  cases x with
  | legacy raw =>
    cases h : raw.bind fun x => Bytes.opened svc.legacyKey none x.1 x.2 <;>
      simp [FailsClosed, Refused, Service.decrypt, h, Stored.Readable, Failure.isCrypto]
  | envelope json =>
    rw [failsClosed_parsed]
    rcases json with - | ⟨v, alg, kid, n, ct⟩ | - | - | - | -
    · simp [deserialize, Stored.Readable, Failure.isCrypto]
    · have hparse : Failure.envelopeParse.isCrypto = true := rfl
      cases hv : Json.isOne v <;> cases alg <;> cases kid <;> cases n <;> cases ct <;>
        simp only [deserialize, Stored.Readable, hv, field, bind, Except.bind] <;> simp [hparse]
      · rename_i n
        obtain ⟨b, hn⟩ | ⟨e, hn, he⟩ := b64decode_cases (B := B) n <;> simp [Except.isOk, Except.toBool, *]
      · rename_i n ct
        obtain ⟨b, hn⟩ | ⟨e, hn, he⟩ := b64decode_cases (B := B) n <;>
          obtain ⟨b', hc⟩ | ⟨e', hc, he'⟩ := b64decode_cases (B := B) ct <;> simp [Except.isOk, Except.toBool, *]
    all_goals simp [deserialize, Stored.Readable, Failure.isCrypto]

theorem credentials_bound_iff (svc later : Service S) (hring : svc.ring.Keeps later.ring)
    (hlegacy : later.legacyKey = svc.legacyKey) (algorithm : S) (nonce : ℕ) (plaintext : Text) (a b : Option AadContext) :
    ((∀ x ∈ svc.encrypt B algorithm nonce plaintext a, (a = b → later.decrypt B b x = .ok plaintext) ∧
        (a ≠ b → Refused (later.decrypt B b x))) ↔
      plaintext = [] ∨ a = b ∨ svc.v2Enabled ∧ contextBytes a ≠ contextBytes b) ∧
    ∀ c x, FailsClosed (later.decrypt B c x) ↔ x.Readable B := by
  refine ⟨?_, failsClosed_iff⟩
  cases henc : svc.encrypt B algorithm nonce plaintext a with
  | none =>
    have hempty : plaintext = [] := by
      unfold Service.encrypt at henc
      split_ifs at henc
      assumption
    simp [hempty]
  | some x =>
    have hempty : plaintext ≠ [] := by
      rintro rfl
      cases henc
    have hdec := decrypt_encrypt hring hlegacy (b := b) henc
    have hcrypto : Refused (.error .decryption) := ⟨_, rfl, rfl⟩
    have hok : ¬ Refused (.ok plaintext) := fun ⟨e, he, _⟩ => by cases he
    by_cases hab : a = b
    · simp [hdec, hab]
    · by_cases hbytes : svc.v2Enabled ∧ contextBytes a ≠ contextBytes b <;> simp [hdec, hbytes, hab, hempty, hcrypto, hok]

end

def sampleBase64 : Base64 (ℕ ⊕ Bytes) := ⟨.inr, Sum.elim (fun _ => none) some, fun _ => rfl⟩

def sampleService : Service (ℕ ⊕ Bytes) := ⟨true, ⟨(.inl 1, 7), none, fun _ h => by cases h⟩, 0⟩

def contextOf (tenantId provider : Text) : Option AadContext := some { tenantId, provider }

/-- A tenant with the separator in its name, and an envelope of a JSON list. -/
theorem not_bound_joined :
    (¬ ∀ x ∈ sampleService.encrypt sampleBase64 (.inl 0) 3 ['p'] (contextOf ['a', '|', 'b'] ['c']),
      Refused (sampleService.decrypt sampleBase64 (contextOf ['a'] ['b', '|', 'c']) x)) ∧
    ¬ FailsClosed (sampleService.decrypt sampleBase64 none (.envelope (some .other))) := by
  refine ⟨fun h => ?_, fun h => ?_⟩
  · obtain ⟨_, ⟨⟩, -⟩ := h _ rfl
  · obtain ⟨_, ⟨⟩⟩ | ⟨_, ⟨⟩, ⟨⟩⟩ := h

def rotatedService : Service (ℕ ⊕ Bytes) := ⟨false, ⟨(.inl 2, 8), some (.inl 1, 7), fun _ h hk => by cases h; cases hk⟩, 0⟩

theorem credentials_bound_iff_rotated :
    (sampleService.encrypt sampleBase64 (.inl 0) 3 ['p'] (contextOf ['a'] ['c'])).map
      (rotatedService.decrypt sampleBase64 (contextOf ['a'] ['c'])) = some (.ok ['p']) :=
  congrArg some ((((credentials_bound_iff sampleService rotatedService (.inr rfl) rfl _ 3 ['p'] _ _).1.mpr
    (.inr (.inl rfl))) _ rfl).1 rfl)

theorem rotations_keep_credentials_once : ∃ x,
    rotatedService.reEncrypt sampleBase64 (.inl 0) 4 none (sampleService.ring.seal sampleBase64 (.inl 0) 3 ['p'] none) = .ok x ∧
      rotatedService.decrypt sampleBase64 none x = .ok ['p'] := by
  obtain ⟨x, hx, hread⟩ := rotations_keep_credentials (B := sampleBase64) sampleService [(rotatedService, 4)]
    ⟨.inr rfl, trivial⟩ (.inl 0) 3 ['p'] none
  exact ⟨x, hx, hread rotatedService none (.inl rfl)⟩

end SyrocePms.Crypto

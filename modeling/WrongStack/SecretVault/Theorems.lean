import WrongStack.SecretVault.Vault
import Mathlib.Data.List.Forall2

/-!
# Rotating the key of the vault

What a rotation keeps, for every config whose encrypted values decrypt: exactly which values survive when it returns,
and exactly which when it stops after some of its writes.
-/

namespace WrongStack.SecretVault

open Lib Utils Json

variable {Key Iv : Type} {c : Cipher Key Iv} {key : Option Key} {newKey : Key} {value p : JsString}

/-! ## Encrypted values -/

theorem utf16_digit {d : Char} (h : d.isDigit = true) : utf16 d = [unit d] ∧ isDigit (unit d) = true := by
  simp only [Char.isDigit, Bool.and_eq_true, decide_eq_true_eq, ge_iff_le] at h
  have hlow : 48 ≤ d.val.toNat := h.1
  have hhigh : d.val.toNat ≤ 57 := h.2
  have hmod : (unit d).toNat = d.val.toNat := by
    rw [unit, UInt32.toNat_toUInt16, Nat.mod_eq_of_lt (by omega)]
  constructor
  · rw [utf16, if_pos (UInt32.lt_iff_toNat_lt.mpr (Nat.lt_of_le_of_lt hhigh (by decide)))]
    rfl
  · simp only [isDigit, Bool.and_eq_true, decide_eq_true_eq, UInt16.le_iff_toNat_le, hmod]
    exact ⟨hlow, hhigh⟩

theorem takeWhile_digits (digits : List Char) (h : ∀ d ∈ digits, d.isDigit = true) (rest : JsString) :
    (digits.flatMap utf16 ++ unit ':' :: rest).takeWhile isDigit = digits.flatMap utf16 ∧
      (digits.flatMap utf16 ++ unit ':' :: rest).dropWhile isDigit = unit ':' :: rest := by
  induction digits with
  | nil => exact ⟨rfl, rfl⟩
  | cons d digits ih =>
      obtain ⟨hunit, hd⟩ := utf16_digit (h d List.mem_cons_self)
      obtain ⟨htake, hdrop⟩ := ih fun d' hd' => h d' (List.mem_cons_of_mem _ hd')
      rw [List.flatMap_cons, hunit, List.cons_append, List.cons_append, List.nil_append]
      simp only [List.takeWhile_cons, List.dropWhile_cons, hd, ↓reduceIte, htake, hdrop, and_self]

theorem afterPrefix_encrypted (version : Nat) (payload : JsString) :
    afterPrefix (encryptedPrefixForVersion version ++ payload) = some payload := by
  have hdigits : js (toString version) = (Nat.toDigits 10 version).flatMap utf16 := by
    rw [js, show toString version = version.repr from rfl, Nat.toList_repr]
  obtain ⟨htake, hdrop⟩ := takeWhile_digits (Nat.toDigits 10 version)
    (fun d hd => Nat.isDigit_of_mem_toDigits (by decide) (by decide) hd) payload
  have hne : (Nat.toDigits 10 version).flatMap utf16 ≠ [] := by
    intro h
    rw [List.flatMap_eq_nil_iff] at h
    cases hd : Nat.toDigits 10 version with
    | nil => exact Nat.toDigits_ne_nil hd
    | cons d ds =>
        have := h d (hd ▸ List.mem_cons_self)
        unfold utf16 at this
        split at this <;> cases this
  have hsplit : encryptedPrefixForVersion version ++ payload =
      js "enc:v" ++ ((Nat.toDigits 10 version).flatMap utf16 ++ unit ':' :: payload) := by
    rw [encryptedPrefixForVersion, hdigits, show js ":" = [unit ':'] from by decide]
    simp
  have hlength : (js "enc:v").length = 5 := by decide
  rw [hsplit, afterPrefix, if_pos (by simp), show (5 : Nat) = (js "enc:v").length from hlength.symm,
    List.drop_left]
  simp only [htake, hdrop]
  cases hd : (Nat.toDigits 10 version).flatMap utf16 with
  | nil => exact absurd hd hne
  | cons d ds => simp

theorem afterPrefix_length {payload : JsString} (h : afterPrefix value = some payload) :
    payload.length < value.length := by
  unfold afterPrefix at h
  split at h
  · simp only at h
    split at h
    · rename_i d ds colon payload' htake hdrop
      split at h
      · cases h
        have hlength := congrArg List.length (List.takeWhile_append_dropWhile (p := isDigit) (l := value.drop 5))
        rw [htake, hdrop] at hlength
        simp only [List.cons_append, List.length_cons, List.length_append, List.length_drop] at hlength
        omega
      · cases h
    · cases h
  · cases h

theorem decrypt_plain (h : isEncrypted value = false) : decrypt c key value = some value := by
  have hpresent : afterPrefix value = none := by simpa [isEncrypted] using h
  rw [decrypt, hpresent]

theorem decrypt_encrypt (keyVersion : Nat) (iv : Iv) (h : isEncrypted p = false) :
    decrypt c (some newKey) (encrypt c newKey keyVersion iv p) = some p := by
  rw [encrypt, if_neg (by simp [h]), decrypt, afterPrefix_encrypted]
  exact c.openText_sealText newKey iv p

theorem isEncrypted_encrypt (c : Cipher Key Iv) (k : Key) (keyVersion : Nat) (iv : Iv) (p : JsString) :
    isEncrypted (encrypt c k keyVersion iv p) = true := by
  unfold encrypt
  split
  · assumption
  · rw [isEncrypted, afterPrefix_encrypted]
    rfl

theorem decrypt_ne (henc : isEncrypted value = true) : decrypt c key value ≠ some value := by
  intro h
  obtain ⟨payload, hpresent⟩ := Option.isSome_iff_exists.mp henc
  rw [decrypt, hpresent] at h
  obtain ⟨k, -, hopen⟩ := Option.bind_eq_some_iff.mp h
  exact absurd (c.shorter k payload value hopen) (Nat.not_le.mpr (afterPrefix_length hpresent))

/-- Nothing decrypts under two keys. -/
theorem decrypt_other (henc : isEncrypted value = true) (h : decrypt c key value = some p)
    (hnew : key ≠ some newKey) : decrypt c (some newKey) value = none := by
  obtain ⟨payload, hpresent⟩ := Option.isSome_iff_exists.mp henc
  rw [decrypt, hpresent] at h ⊢
  obtain ⟨k, rfl, hopen⟩ := Option.bind_eq_some_iff.mp h
  exact c.authentic k newKey payload p hopen fun heq => hnew (heq ▸ rfl)

/-! ## Walks -/

/-- A transformation of the strings under a key. -/
def keyed (transform : List Nat → JsString → JsString → JsString) (l : StringAt) : JsString :=
  match l.key with
  | none => l.text
  | some k => transform l.path k l.text

mutual

theorem walk_eq (transform : List Nat → JsString → JsString → JsString) (path : List Nat) (v : Json) :
    walk transform path v = mapStrings (keyed transform) path none v := by
  cases v with
  | arr items => exact congrArg arr (walkItems_eq transform path 0 items)
  | obj fields => exact congrArg obj (walkFields_eq transform path 0 fields)
  | _ => rfl

theorem walkItems_eq (transform : List Nat → JsString → JsString → JsString) (path : List Nat) (i : Nat)
    (vs : List Json) : walkItems transform path i vs = mapItems (keyed transform) path i vs := by
  cases vs with
  | nil => rfl
  | cons v vs =>
      simp only [walkItems, mapItems]
      rw [walk_eq transform (i :: path) v, walkItems_eq transform path (i + 1) vs]

theorem walkFields_eq (transform : List Nat → JsString → JsString → JsString) (path : List Nat) (i : Nat)
    (fs : List (JsString × Json)) : walkFields transform path i fs = mapFields (keyed transform) path i fs := by
  cases fs with
  | nil => rfl
  | cons f fs =>
      obtain ⟨k, v⟩ := f
      cases v with
      | str s =>
          simp only [walkFields, mapFields]
          rw [walkFields_eq transform path (i + 1) fs]
          rfl
      | null | bool | num =>
          simp only [walkFields, mapFields]
          rw [walkFields_eq transform path (i + 1) fs]
          rfl
      | arr items =>
          simp only [walkFields, mapFields]
          rw [walk_eq transform (i :: path) (.arr items), walkFields_eq transform path (i + 1) fs]
          rfl
      | obj fields =>
          simp only [walkFields, mapFields]
          rw [walk_eq transform (i :: path) (.obj fields), walkFields_eq transform path (i + 1) fs]
          rfl

end

def opened (c : Cipher Key Iv) (key : Option Key) : StringAt → JsString :=
  keyed fun _ _ v => (decrypt c key v).getD v

/-- The walk that decrypts has met these strings, and could decrypt all. -/
structure Opens {α : Type} (found : List StringAt) (value : α) (r : DecryptCount α) : Prop where
  value_eq : r.value = value
  failed_eq : r.failed = []
  n_eq : r.n = 0 ↔ ∀ l ∈ found, l.key ≠ none → isEncrypted l.text = false

theorem Opens.append {α β γ : Type} {found found' : List StringAt} {v : α} {w : β} {r : DecryptCount α}
    {rest : DecryptCount β} (h : Opens found v r) (h' : Opens found' w rest) (join : α → β → γ) :
    Opens (found ++ found') (join v w)
      { value := join r.value rest.value, n := r.n + rest.n, failed := r.failed ++ rest.failed } where
  value_eq := by rw [h.value_eq, h'.value_eq]
  failed_eq := by rw [h.failed_eq, h'.failed_eq, List.append_nil]
  n_eq := by simp only [Nat.add_eq_zero_iff, h.n_eq, h'.n_eq, List.mem_append, or_imp, forall_and]

mutual

theorem walkDecryptCount_opens (path : List Nat) (pathPrefix : JsString) (v : Json)
    (hall : ∀ l ∈ strings path none v, (decrypt c key l.text).isSome) :
    Opens (strings path none v) (mapStrings (opened c key) path none v) (walkDecryptCount c key pathPrefix v) := by
  cases v with
  | arr items =>
      have h := walkDecryptItems_opens path pathPrefix 0 items hall
      exact ⟨congrArg arr h.value_eq, h.failed_eq, h.n_eq⟩
  | obj fields =>
      have h := walkDecryptFields_opens path pathPrefix 0 fields hall
      exact ⟨congrArg obj h.value_eq, h.failed_eq, h.n_eq⟩
  | str s => exact ⟨rfl, rfl, by simp [walkDecryptCount, strings]⟩
  | null | bool | num => exact ⟨rfl, rfl, by simp [walkDecryptCount, strings]⟩

theorem walkDecryptItems_opens (path : List Nat) (pathPrefix : JsString) (i : Nat) (vs : List Json)
    (hall : ∀ l ∈ itemStrings path i vs, (decrypt c key l.text).isSome) :
    Opens (itemStrings path i vs) (mapItems (opened c key) path i vs)
      (walkDecryptItems c key pathPrefix i vs) := by
  cases vs with
  | nil => exact ⟨rfl, rfl, by simp [walkDecryptItems, itemStrings]⟩
  | cons v vs =>
      simp only [itemStrings, List.mem_append, or_imp, forall_and] at hall
      exact (walkDecryptCount_opens (i :: path) _ v hall.1).append
        (walkDecryptItems_opens path pathPrefix (i + 1) vs hall.2) List.cons

theorem walkDecryptFields_opens (path : List Nat) (pathPrefix : JsString) (i : Nat) (fs : List (JsString × Json))
    (hall : ∀ l ∈ fieldStrings path i fs, (decrypt c key l.text).isSome) :
    Opens (fieldStrings path i fs) (mapFields (opened c key) path i fs) (walkDecryptFields c key pathPrefix fs) := by
  cases fs with
  | nil => exact ⟨rfl, rfl, by simp [walkDecryptFields, fieldStrings]⟩
  | cons f fs =>
      obtain ⟨k, v⟩ := f
      simp only [fieldStrings, List.mem_append, or_imp, forall_and] at hall
      have hrest := walkDecryptFields_opens path pathPrefix (i + 1) fs hall.2
      have hnode (h : Opens (strings (i :: path) none v) (mapStrings (opened c key) (i :: path) none v)
          (walkDecryptCount c key (if pathPrefix.isEmpty then k else pathPrefix ++ js "." ++ k) v)) :=
        h.append hrest fun w ws => (k, w) :: ws
      cases v with
      | str s =>
          simp only [fieldStrings, strings, mapFields, mapStrings, opened, keyed, walkDecryptFields]
          have hs := hall.1 ⟨i :: path, some k, s⟩ (by simp [strings])
          cases henc : isEncrypted s with
          | false =>
              rw [decrypt_plain henc]
              refine ⟨congrArg _ hrest.value_eq, hrest.failed_eq, ?_⟩
              simpa [henc] using hrest.n_eq
          | true =>
              obtain ⟨plaintext, hplain⟩ := Option.isSome_iff_exists.mp hs
              simp only at hplain
              rw [hplain]
              exact ⟨congrArg _ hrest.value_eq, hrest.failed_eq, by simp [henc]⟩
      | null | bool | num => exact hnode ⟨rfl, rfl, by simp [walkDecryptCount, strings]⟩
      | arr items => exact hnode (walkDecryptCount_opens (i :: path) _ (.arr items) hall.1)
      | obj fields => exact hnode (walkDecryptCount_opens (i :: path) _ (.obj fields) hall.1)

end

/-- What the rewritten config has in the place of a string. -/
def rewritten (c : Cipher Key Iv) (key : Option Key) (newKey : Key) (keyVersion : Nat) (ivs : List Nat → Iv)
    (l : StringAt) : JsString :=
  keyed (fun path k v => if isSecretField k && !v.isEmpty && !isEncrypted v then
    encrypt c newKey keyVersion (ivs path) v else v) { l with text := opened c key l }

theorem walkReencrypt_opened (keyVersion : Nat) (ivs : List Nat → Iv) (cfg : Json) :
    walkReencrypt c newKey keyVersion ivs (mapStrings (opened c key) [] none cfg) =
      mapStrings (rewritten c key newKey keyVersion ivs) [] none cfg := by
  rw [walkReencrypt, walk_eq, mapStrings_mapStrings]
  rfl

/-! ## What becomes of one string -/

variable {keyVersion : Nat} {ivs : List Nat → Iv} {l : StringAt}

theorem rewritten_item (hkey : l.key = none) : rewritten c key newKey keyVersion ivs l = l.text := by
  simp [rewritten, opened, keyed, hkey]

theorem rewritten_field {k : JsString} (hkey : l.key = some k) (hp : decrypt c key l.text = some p) :
    rewritten c key newKey keyVersion ivs l =
      if isSecretField k && !p.isEmpty && !isEncrypted p then encrypt c newKey keyVersion (ivs l.path) p else p := by
  simp [rewritten, opened, keyed, hkey, hp]

/-- After the last write a string reads as before, unless it is an encrypted item, or has been encrypted twice. -/
theorem decrypt_rewritten_iff (hnew : key ≠ some newKey) (hp : decrypt c key l.text = some p) :
    decrypt c (some newKey) (rewritten c key newKey keyVersion ivs l) = some p ↔
      (isEncrypted l.text = true → l.key ≠ none ∧ isEncrypted p = false) := by
  cases hkey : l.key with
  | none =>
      rw [rewritten_item hkey]
      cases henc : isEncrypted l.text with
      | true => simp [decrypt_other henc hp hnew]
      | false => simpa [decrypt_plain henc] using hp
  | some k =>
      rw [rewritten_field hkey hp]
      cases hpenc : isEncrypted p with
      | true =>
          have henc : isEncrypted l.text = true := by
            cases henc : isEncrypted l.text with
            | true => rfl
            | false =>
                rw [decrypt_plain henc] at hp
                cases hp
                rw [henc] at hpenc
                cases hpenc
          simp [henc, decrypt_ne hpenc]
      | false =>
          simp only [Bool.not_false, Bool.and_true]
          split
          · simp [decrypt_encrypt keyVersion (ivs l.path) hpenc]
          · simp [decrypt_plain hpenc]

/-- What a config means at a place. -/
def meaning (c : Cipher Key Iv) (key : Option Key) : StringAt → JsString :=
  keyed fun _ k v => if isSecretField k then (decrypt c key v).getD [] else v

/-- After a rotation a string means the same and is encrypted if it was, if it is no field, or not encrypted, or a
secret whose plaintext is encrypted again. -/
theorem meaning_rewritten_iff (hp : decrypt c key l.text = some p) :
    (meaning c (some newKey) { l with text := rewritten c key newKey keyVersion ivs l } = meaning c key l ∧
        (isEncrypted l.text = true → isEncrypted (rewritten c key newKey keyVersion ivs l) = true)) ↔
      (isEncrypted l.text = true → ∀ k, l.key = some k → isSecretField k = true ∧ p ≠ [] ∧ isEncrypted p = false) := by
  cases hkey : l.key with
  | none => simp [meaning, keyed, hkey, rewritten_item hkey]
  | some k =>
      rw [rewritten_field hkey hp]
      simp only [meaning, keyed, hkey, hp, Option.getD_some, Option.some.injEq, forall_eq']
      have hempty : isEncrypted [] = false := by decide
      cases henc : isEncrypted l.text with
      | false =>
          obtain rfl : l.text = p := by simpa [decrypt_plain henc] using hp
          cases isSecretField k with
          | false => simp
          | true =>
              simp only [henc, ↓reduceIte, Bool.true_and, Bool.not_false, Bool.and_true]
              split <;> simp [decrypt_encrypt keyVersion (ivs l.path) henc, decrypt_plain henc]
      | true =>
          cases isSecretField k with
          | false =>
              have hne : p ≠ l.text := fun heq => decrypt_ne henc (heq ▸ hp)
              simp [hne]
          | true =>
              cases hpenc : isEncrypted p with
              | true =>
                  have hne : (decrypt c (some newKey) p).getD [] ≠ p := by
                    cases hread : decrypt c (some newKey) p with
                    | none =>
                        intro heq
                        rw [← heq, Option.getD_none, hempty] at hpenc
                        cases hpenc
                    | some q =>
                        intro heq
                        rw [Option.getD_some] at heq
                        exact decrypt_ne hpenc (heq ▸ hread)
                  simp [hne]
              | false =>
                  cases p with
                  | nil => simp [hempty]
                  | cons a p => simp [decrypt_encrypt keyVersion (ivs l.path) hpenc, isEncrypted_encrypt]

/-! ## A rotation -/

/-- A vault that has loaded a key has that of the key file. -/
structure VaultState (Key : Type) where
  disk : Disk Key
  vault : Vault Key
  loaded : ∀ k : Key, vault.key = some k → ∃ file, disk.keyFile = some file ∧ file.key = k

/-- The key that a fresh vault reads with. -/
def freshKey (disk : Disk Key) : Option Key := (({} : Vault Key).load disk).key

/-- The strings of the config file. -/
def ConfigFile.strings : ConfigFile → List StringAt
  | .json cfg => Json.strings [] none cfg
  | _ => []

inductive Ending
  | returns
  /-- A failed write or a crash, after so many writes. -/
  | stops (writes : Nat)

def Disk.after (disk : Disk Key) (writes : List (Write Key)) : Ending → Disk Key
  | .returns => writes.foldl Disk.apply disk
  | .stops n => (writes.take n).foldl Disk.apply disk

/-- `decryptConfigSecrets` of the config file with a fresh vault. -/
def loadConfig (c : Cipher Key Iv) (disk : Disk Key) : Option Json :=
  match disk.config with
  | .json cfg => some (decryptConfigSecrets c (freshKey disk) cfg)
  | _ => none

/-- No secret is lost or exposed. -/
def Kept (c : Cipher Key Iv) (before after : Disk Key) : Ending → Prop
  | .returns =>
      loadConfig c after = loadConfig c before ∧
        List.Forall₂ (fun l l' => isEncrypted l.text = true → isEncrypted l'.text = true) before.config.strings
          after.config.strings
  | .stops _ =>
      List.Forall₂ (fun l l' => ∀ p, decrypt c (freshKey before) l.text = some p →
        decrypt c (freshKey after) l'.text = some p) before.config.strings after.config.strings

/-- The encrypted values that survive: in the end those in arrays, and the secret fields with a plaintext; a stop
between the two files loses every encrypted value, and one after them those in arrays. -/
def Survives (c : Cipher Key Iv) (key : Option Key) (cfg : Json) : Ending → Prop
  | .returns => ∀ l ∈ Json.strings [] none cfg, isEncrypted l.text = true → ∀ k, l.key = some k →
      isSecretField k = true ∧ ∀ p, decrypt c key l.text = some p → p ≠ [] ∧ isEncrypted p = false
  | .stops n =>
      n = 0 ∨ (∀ l ∈ Json.strings [] none cfg, isEncrypted l.text = false) ∨
        2 ≤ n ∧ ∀ l ∈ Json.strings [] none cfg, isEncrypted l.text = true →
          l.key ≠ none ∧ ∀ p, decrypt c key l.text = some p → isEncrypted p = false

theorem after_one (disk : Disk Key) (w : Write Key) (n : Nat) : disk.after [w] (.stops (n + 1)) = disk.apply w := by
  simp [Disk.after]

theorem after_two (disk : Disk Key) (w w' : Write Key) (n : Nat) :
    disk.after [w, w'] (.stops (n + 2)) = (disk.apply w).apply w' := by
  simp [Disk.after]

theorem VaultState.load_key (s : VaultState Key) : (s.vault.load s.disk).key = freshKey s.disk := by
  unfold freshKey Vault.load
  cases hkey : s.vault.key with
  | none => cases s.disk.keyFile <;> simp [hkey]
  | some k =>
      obtain ⟨file, hfile, rfl⟩ := s.loaded k hkey
      simp [hfile, hkey]

/-! ## The laws, string by string -/

section Laws

variable {before after : Disk Key} {cfg : Json} {t : StringAt → JsString}

theorem kept_stops_iff (hbefore : before.config = .json cfg) (hafter : after.config = .json (mapStrings t [] none cfg))
    (n : Nat) :
    Kept c before after (.stops n) ↔ ∀ l ∈ Json.strings [] none cfg, ∀ p,
      decrypt c (freshKey before) l.text = some p → decrypt c (freshKey after) (t l) = some p := by
  rw [Kept, hbefore, hafter, ConfigFile.strings, ConfigFile.strings, strings_mapStrings, List.forall₂_map_right_iff,
    List.forall₂_same]

theorem kept_returns_iff (hbefore : before.config = .json cfg)
    (hafter : after.config = .json (mapStrings t [] none cfg)) :
    Kept c before after .returns ↔ ∀ l ∈ Json.strings [] none cfg,
      meaning c (freshKey after) { l with text := t l } = meaning c (freshKey before) l ∧
        (isEncrypted l.text = true → isEncrypted (t l) = true) := by
  rw [Kept, loadConfig, loadConfig, hbefore, hafter, ConfigFile.strings, ConfigFile.strings, strings_mapStrings,
    List.forall₂_map_right_iff, List.forall₂_same]
  simp only [Option.some.injEq, decryptConfigSecrets, walk_eq, mapStrings_mapStrings]
  rw [mapStrings_eq_iff, ← forall₂_and]
  rfl

theorem kept_keyFile_iff (hbefore : before.config = .json cfg) (hafter : after.config = .json cfg)
    (hkey : freshKey after = some newKey) (hnew : freshKey before ≠ some newKey)
    (hall : ∀ l ∈ Json.strings [] none cfg, (decrypt c (freshKey before) l.text).isSome) (n : Nat) :
    Kept c before after (.stops n) ↔ ∀ l ∈ Json.strings [] none cfg, isEncrypted l.text = false := by
  rw [kept_stops_iff hbefore (hafter.trans (by rw [mapStrings_text])) n, hkey]
  constructor
  · intro h l hl
    obtain ⟨p, hp⟩ := Option.isSome_iff_exists.mp (hall l hl)
    cases henc : isEncrypted l.text with
    | false => rfl
    | true =>
        have hread := h l hl p hp
        rw [decrypt_other henc hp hnew] at hread
        cases hread
  · intro h l hl p hp
    rw [decrypt_plain (h l hl)] at hp ⊢
    exact hp

theorem kept_start (hbefore : before.config = .json cfg) : Kept c before before (.stops 0) := by
  rw [kept_stops_iff hbefore (hbefore.trans (by rw [mapStrings_text])) 0]
  exact fun _ _ _ hp => hp

/-- A rotation that writes only the key file, since no field is encrypted. -/
theorem kept_one_write (hbefore : before.config = .json cfg) (hnew : freshKey before ≠ some newKey)
    (hall : ∀ l ∈ Json.strings [] none cfg, (decrypt c (freshKey before) l.text).isSome)
    (hfields : ∀ l ∈ Json.strings [] none cfg, l.key ≠ none → isEncrypted l.text = false) (version : Nat)
    (e : Ending) :
    Kept c before (before.after [.keyFile ⟨newKey, version⟩] e) e ↔ Survives c (freshKey before) cfg e := by
  cases e with
  | returns =>
      have hafter : (before.apply (.keyFile ⟨newKey, version⟩)).config = .json (mapStrings StringAt.text [] none cfg) :=
        hbefore.trans (by rw [mapStrings_text])
      refine (kept_returns_iff hbefore hafter).trans ?_
      refine iff_of_true (fun l hl => ⟨?_, id⟩) fun l hl henc k hkey => ?_
      · cases hkey : l.key with
        | none => simp [meaning, keyed, hkey]
        | some k =>
            have hplain := hfields l hl (by simp [hkey])
            simp [meaning, keyed, hkey, decrypt_plain hplain]
      · rw [hfields l hl (by simp [hkey])] at henc
        cases henc
  | stops n =>
      cases n with
      | zero => exact iff_of_true (kept_start hbefore) (.inl rfl)
      | succ n =>
          rw [after_one]
          have hafter : (before.apply (.keyFile ⟨newKey, version⟩)).config = .json cfg := hbefore
          rw [kept_keyFile_iff hbefore hafter rfl hnew hall]
          refine ⟨fun h => .inr (.inl h), fun h l hl => ?_⟩
          rcases h with h | h | ⟨-, h⟩
          · cases h
          · exact h l hl
          · cases henc : isEncrypted l.text with
            | false => rfl
            | true => rw [← henc, hfields l hl (h l hl henc).1]

theorem kept_two_writes (hbefore : before.config = .json cfg) (hnew : freshKey before ≠ some newKey)
    (hall : ∀ l ∈ Json.strings [] none cfg, (decrypt c (freshKey before) l.text).isSome)
    (hfield : ∃ l ∈ Json.strings [] none cfg, isEncrypted l.text = true) (version keyVersion : Nat)
    (ivs : List Nat → Iv) (e : Ending) :
    Kept c before (before.after [.keyFile ⟨newKey, version⟩,
        .config (mapStrings (rewritten c (freshKey before) newKey keyVersion ivs) [] none cfg)] e) e ↔
      Survives c (freshKey before) cfg e := by
  cases e with
  | returns =>
      rw [kept_returns_iff hbefore rfl]
      refine forall₂_congr fun l hl => ?_
      obtain ⟨p, hp⟩ := Option.isSome_iff_exists.mp (hall l hl)
      simp only [hp, Option.some.injEq, forall_eq']
      exact meaning_rewritten_iff hp
  | stops n =>
      obtain ⟨l, hl, henc⟩ := hfield
      have hsome : ¬∀ l ∈ Json.strings [] none cfg, isEncrypted l.text = false := by
        intro h
        rw [h l hl] at henc
        cases henc
      cases n with
      | zero => exact iff_of_true (kept_start hbefore) (.inl rfl)
      | succ n =>
          cases n with
          | zero =>
              have hafter : (before.apply (.keyFile ⟨newKey, version⟩)).config = .json cfg := hbefore
              refine (kept_keyFile_iff hbefore hafter rfl hnew hall 1).trans ?_
              simp [Survives, hsome]
          | succ n =>
              rw [after_two, kept_stops_iff hbefore rfl]
              simp only [Survives, hsome, Nat.succ_ne_zero, false_or, Nat.le_add_left, true_and]
              refine forall₂_congr fun l hl => ?_
              obtain ⟨p, hp⟩ := Option.isSome_iff_exists.mp (hall l hl)
              simp only [hp, Option.some.injEq, forall_eq']
              exact decrypt_rewritten_iff hnew hp

end Laws

/-- What a rotation writes: the key file, and then the config if one of its fields is encrypted. -/
theorem rotateConfigKeys_writes (s : VaultState Key) (newKey : Key) (ivs : List Nat → Iv) {cfg : Json}
    (hcfg : s.disk.config = .json cfg)
    (hall : ∀ l ∈ Json.strings [] none cfg, (decrypt c (freshKey s.disk) l.text).isSome) :
    ∃ r version keyVersion, rotateConfigKeys c s.disk s.vault newKey ivs = .ok r ∧
      (((∀ l ∈ Json.strings [] none cfg, l.key ≠ none → isEncrypted l.text = false) ∧
          r.writes = [.keyFile ⟨newKey, version⟩]) ∨
        ((∃ l ∈ Json.strings [] none cfg, isEncrypted l.text = true) ∧
          r.writes = [.keyFile ⟨newKey, version⟩,
            .config (mapStrings (rewritten c (freshKey s.disk) newKey keyVersion ivs) [] none cfg)])) := by
  have hopens : Opens (Json.strings [] none cfg) (mapStrings (opened c (freshKey s.disk)) [] none cfg)
      (walkDecryptCount c (freshKey s.disk) [] cfg) :=
    walkDecryptCount_opens [] [] cfg hall
  unfold rotateConfigKeys
  rw [hcfg]
  simp only [s.load_key, hopens.failed_eq, List.isEmpty_nil, Bool.not_true, Bool.false_eq_true, ↓reduceIte]
  split
  · rename_i hn
    exact ⟨_, _, 0, rfl, .inl ⟨hopens.n_eq.mp hn, rfl⟩⟩
  · rename_i hn
    have hfield : ∃ l ∈ Json.strings [] none cfg, isEncrypted l.text = true := by
      rw [hopens.n_eq] at hn
      push Not at hn
      obtain ⟨l, hl, -, henc⟩ := hn
      exact ⟨l, hl, by simpa using henc⟩
    let rotated := rotateKey (s.vault.load s.disk) newKey
    refine ⟨_, rotated.1.version, rotated.2.2, rfl, .inr ⟨hfield, ?_⟩⟩
    rw [hopens.value_eq, walkReencrypt_opened]
    rfl

/-- For every config whose encrypted values decrypt, and wherever the rotation ends: nothing is lost or exposed exactly
if the encrypted values are of the surviving kinds. -/
theorem rotateConfigKeys_kept_iff (c : Cipher Key Iv) (s : VaultState Key) (newKey : Key) (ivs : List Nat → Iv)
    (cfg : Json) (hcfg : s.disk.config = .json cfg)
    (hall : ∀ l ∈ Json.strings [] none cfg, (decrypt c (freshKey s.disk) l.text).isSome)
    (hnew : freshKey s.disk ≠ some newKey) :
    ∃ r, rotateConfigKeys c s.disk s.vault newKey ivs = .ok r ∧
      ∀ e : Ending, Kept c s.disk (s.disk.after r.writes e) e ↔ Survives c (freshKey s.disk) cfg e := by
  obtain ⟨r, version, keyVersion, hr, ⟨hfields, hwrites⟩ | ⟨hfield, hwrites⟩⟩ :=
    rotateConfigKeys_writes s newKey ivs hcfg hall
  · exact ⟨r, hr, fun e => hwrites ▸ kept_one_write hcfg hnew hall hfields version e⟩
  · exact ⟨r, hr, fun e => hwrites ▸ kept_two_writes hcfg hnew hall hfield version keyVersion ivs e⟩

def openLabelled (k : CodeUnit) : JsString → Option JsString
  | _ :: k' :: p => if k' = k then some p else none
  | _ => none

theorem openLabelled_eq_some {k : CodeUnit} {payload p : JsString} (h : openLabelled k payload = some p) :
    ∃ iv, payload = iv :: k :: p := by
  cases payload with
  | nil => cases h
  | cons iv payload =>
      cases payload with
      | nil => cases h
      | cons k' payload =>
          rw [openLabelled] at h
          split at h
          · rename_i hk
            cases h
            exact ⟨iv, hk ▸ rfl⟩
          · cases h

theorem openLabelled_other (k k' : CodeUnit) (payload p : JsString) (h : openLabelled k payload = some p)
    (hne : k ≠ k') : openLabelled k' payload = none := by
  obtain ⟨iv, rfl⟩ := openLabelled_eq_some h
  exact if_neg hne

theorem openLabelled_length (k : CodeUnit) (payload p : JsString) (h : openLabelled k payload = some p) :
    p.length ≤ payload.length := by
  obtain ⟨iv, rfl⟩ := openLabelled_eq_some h
  simp only [List.length_cons]
  omega

/-- A cipher that writes the key in front of the plaintext. -/
def labelled : Cipher CodeUnit CodeUnit where
  sealText k iv p := iv :: k :: p
  openText := openLabelled
  openText_sealText _ _ _ := if_pos rfl
  authentic := openLabelled_other
  shorter := openLabelled_length

/-- A config with one API key. -/
def oneSecret : Json := .obj [(js "apiKey", .str (encrypt labelled 1 1 0 (js "sk")))]

def oneSecretState : VaultState CodeUnit where
  disk := { keyFile := some { key := 1, version := 1 }, config := .json oneSecret }
  vault := {}
  loaded := fun _ h => nomatch h

theorem rotateConfigKeys_kept_apiKey :
    ∃ r, rotateConfigKeys labelled oneSecretState.disk oneSecretState.vault 2 (fun _ => 0) = .ok r ∧
      ∀ e : Ending, Kept labelled oneSecretState.disk (oneSecretState.disk.after r.writes e) e ↔
        Survives labelled (freshKey oneSecretState.disk) oneSecret e :=
  rotateConfigKeys_kept_iff labelled oneSecretState 2 (fun _ => 0) oneSecret rfl (by decide +kernel)
    (by decide +kernel)

/-- A crash between the two files leaves the config with the old key's values beside the new key. -/
theorem crash_loses :
    (∀ l ∈ Json.strings [] none oneSecret, (decrypt labelled (freshKey oneSecretState.disk) l.text).isSome) ∧
      ∃ r, rotateConfigKeys labelled oneSecretState.disk oneSecretState.vault 2 (fun _ => 0) = .ok r ∧
        ¬Kept labelled oneSecretState.disk (oneSecretState.disk.after r.writes (.stops 1)) (.stops 1) := by
  have hopen : ∀ l ∈ Json.strings [] none oneSecret, (decrypt labelled (freshKey oneSecretState.disk) l.text).isSome :=
    by decide +kernel
  have hnew : freshKey oneSecretState.disk ≠ some 2 := by decide +kernel
  have hencrypted : ¬∀ l ∈ Json.strings [] none oneSecret, isEncrypted l.text = false := by decide +kernel
  obtain ⟨r, version, keyVersion, hr, hwrites⟩ :=
    rotateConfigKeys_writes oneSecretState 2 (fun _ => 0) rfl hopen
  have hafter : oneSecretState.disk.after r.writes (.stops 1) =
      oneSecretState.disk.apply (.keyFile ⟨2, version⟩) := by
    rcases hwrites with ⟨-, hwrites⟩ | ⟨-, hwrites⟩ <;> rw [hwrites] <;> rfl
  refine ⟨hopen, r, hr, fun h => hencrypted ?_⟩
  rw [hafter] at h
  exact (kept_keyFile_iff rfl rfl rfl hnew hopen 1).mp h

end WrongStack.SecretVault

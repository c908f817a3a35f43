import WrongStack.Lib.Json
import WrongStack.Utils.NewlineStyle

/-!
# The secret vault

`DefaultSecretVault` and the walks over a config (`core/src/security/secret-vault.ts`). The cipher is perfect.
-/

namespace WrongStack.SecretVault

open Lib Utils

/-- AES-256-GCM on a plaintext, written as `<iv>:<tag>:<ciphertext>` in base64. -/
structure Cipher (Key Iv : Type) where
  sealText : Key → Iv → JsString → JsString
  /-- None: malformed, or not authentic under the key. -/
  openText : Key → JsString → Option JsString
  openText_sealText : ∀ (k : Key) (iv : Iv) (p : JsString), openText k (sealText k iv p) = some p
  authentic : ∀ (k k' : Key) (c p : JsString), openText k c = some p → k ≠ k' → openText k' c = none
  /-- The iv and the tag are there too. -/
  shorter : ∀ (k : Key) (c p : JsString), openText k c = some p → p.length ≤ c.length

/-! ## Encrypted values -/

def encryptedPrefixForVersion (version : Nat) : JsString := js "enc:v" ++ js (toString version) ++ js ":"

/-- What comes after a match of `ENCRYPTED_PREFIX_PATTERN`. -/
def afterPrefix (value : JsString) : Option JsString :=
  if (js "enc:v").isPrefixOf value then
    let rest := value.drop 5
    match rest.takeWhile isDigit, rest.dropWhile isDigit with
    | _ :: _, colon :: payload => if colon = unit ':' then some payload else none
    | _, _ => none
  else none

def isEncrypted (value : JsString) : Bool := (afterPrefix value).isSome

/-! ## Names of fields -/

def SECRET_KEY_PATTERN : List JsString :=
  ["apikey", "api_key", "authtoken", "auth_token", "bearer", "secret", "password", "passwd", "pwd", "refreshtoken",
    "refresh_token", "sessionkey", "session_key", "accesstoken", "access_token", "access-token", "privatekey",
    "private_key", "private-key"].map js

def NON_SECRET_OVERRIDES : List JsString := ["publickey", "public_key"].map js

def isSecretField (name : JsString) : Bool :=
  let lc := name.toLowerCase
  if NON_SECRET_OVERRIDES.contains lc then false
  else SECRET_KEY_PATTERN.any fun token => occurrences token lc != 0

/-! ## The vault -/

structure KeyFile (Key : Type) where
  key : Key
  version : Nat

inductive ConfigFile
  | missing
  | invalid
  | json (config : Json)

structure Disk (Key : Type) where
  keyFile : Option (KeyFile Key)
  config : ConfigFile

/-- A vault in memory; the key is loaded when it is first needed. -/
structure Vault (Key : Type) where
  key : Option Key := none
  keyVersion : Nat := 1

variable {Key Iv : Type} (c : Cipher Key Iv)

/-- `loadOrCreateKey`. If there is no key file, the key made now is none that a value has been encrypted with. -/
def Vault.load (vault : Vault Key) (disk : Disk Key) : Vault Key :=
  match vault.key, disk.keyFile with
  | none, some file => { key := some file.key, keyVersion := file.version }
  | _, _ => vault

def encrypt (key : Key) (keyVersion : Nat) (iv : Iv) (plaintext : JsString) : JsString :=
  if isEncrypted plaintext then plaintext else encryptedPrefixForVersion keyVersion ++ c.sealText key iv plaintext

/-- None: it throws. -/
def decrypt (key : Option Key) (value : JsString) : Option JsString :=
  match afterPrefix value with
  | none => some value
  | some payload => key.bind fun k => c.openText k payload

/-! ## Walks -/

mutual

/-- `walk`: strings under a key are transformed, strings in arrays are left alone. -/
def walk (transform : List Nat → JsString → JsString → JsString) (path : List Nat) : Json → Json
  | .arr items => .arr (walkItems transform path 0 items)
  | .obj fields => .obj (walkFields transform path 0 fields)
  | node => node

def walkItems (transform : List Nat → JsString → JsString → JsString) (path : List Nat) (i : Nat) :
    List Json → List Json
  | [] => []
  | item :: items => walk transform (i :: path) item :: walkItems transform path (i + 1) items

def walkFields (transform : List Nat → JsString → JsString → JsString) (path : List Nat) (i : Nat) :
    List (JsString × Json) → List (JsString × Json)
  | [] => []
  | (k, .str v) :: fields => (k, .str (transform (i :: path) k v)) :: walkFields transform path (i + 1) fields
  | (k, v) :: fields => (k, walk transform (i :: path) v) :: walkFields transform path (i + 1) fields

end

/-- A field that cannot be decrypted is empty. -/
def decryptConfigSecrets (key : Option Key) (cfg : Json) : Json :=
  walk (fun _ k v => if isSecretField k then (decrypt c key v).getD [] else v) [] cfg

structure DecryptCount (α : Type) where
  value : α
  n : Nat := 0
  failed : List JsString := []

mutual

def walkDecryptCount (key : Option Key) (pathPrefix : JsString) : Json → DecryptCount Json
  | .arr items =>
      let r := walkDecryptItems key pathPrefix 0 items
      { r with value := .arr r.value }
  | .obj fields =>
      let r := walkDecryptFields key pathPrefix fields
      { r with value := .obj r.value }
  | node => { value := node }

def walkDecryptItems (key : Option Key) (pathPrefix : JsString) (i : Nat) : List Json → DecryptCount (List Json)
  | [] => { value := [] }
  | item :: items =>
      let r := walkDecryptCount key (pathPrefix ++ js "[" ++ js (toString i) ++ js "]") item
      let rest := walkDecryptItems key pathPrefix (i + 1) items
      { value := r.value :: rest.value, n := r.n + rest.n, failed := r.failed ++ rest.failed }

def walkDecryptFields (key : Option Key) (pathPrefix : JsString) :
    List (JsString × Json) → DecryptCount (List (JsString × Json))
  | [] => { value := [] }
  | (k, .str v) :: fields =>
      let rest := walkDecryptFields key pathPrefix fields
      let keyPath := if pathPrefix.isEmpty then k else pathPrefix ++ js "." ++ k
      if isEncrypted v then
        match decrypt c key v with
        | some plaintext => { rest with value := (k, .str plaintext) :: rest.value, n := rest.n + 1 }
        | none => { rest with value := (k, .str v) :: rest.value, failed := keyPath :: rest.failed }
      else { rest with value := (k, .str v) :: rest.value }
  | (k, v) :: fields =>
      let keyPath := if pathPrefix.isEmpty then k else pathPrefix ++ js "." ++ k
      let r := walkDecryptCount key keyPath v
      let rest := walkDecryptFields key pathPrefix fields
      { value := (k, r.value) :: rest.value, n := r.n + rest.n, failed := r.failed ++ rest.failed }

end

/-- `ivs` are the random bytes drawn for the field at each place. -/
def walkReencrypt (key : Key) (keyVersion : Nat) (ivs : List Nat → Iv) (node : Json) : Json :=
  walk (fun path k v => if isSecretField k && !v.isEmpty && !isEncrypted v then encrypt c key keyVersion (ivs path) v
    else v) [] node

/-! ## Rotation -/

inductive Write (Key : Type)
  | keyFile (file : KeyFile Key)
  | config (config : Json)

def Disk.apply (disk : Disk Key) : Write Key → Disk Key
  | .keyFile file => { disk with keyFile := some file }
  | .config config => { disk with config := .json config }

structure Rotation (Key : Type) where
  /-- The file writes, one after the other. -/
  writes : List (Write Key)
  rotated : Nat
  oldVersion : Nat
  newVersion : Nat

/-- `rotateKey`. The file has one byte for the version. -/
def rotateKey (vault : Vault Key) (newKey : Key) : KeyFile Key × Nat × Nat :=
  ({ key := newKey, version := (vault.keyVersion + 1) % 256 }, vault.keyVersion, vault.keyVersion + 1)

def abortMessage (failed : List JsString) : JsString :=
  js "[secret-vault] Aborting key rotation: " ++ js (toString failed.length) ++
    js " field(s) could not be decrypted with the current key and would be permanently lost on rotation: " ++
    JsString.join (js ", ") failed ++ js ". Restore or remove these fields before rotating."

/-- `rotateConfigKeys`: what it writes, or the message of its error. -/
def rotateConfigKeys (disk : Disk Key) (vault : Vault Key) (newKey : Key) (ivs : List Nat → Iv) :
    Except JsString (Rotation Key) :=
  match disk.config with
  | .missing =>
      let (file, oldVersion, newVersion) := rotateKey vault newKey
      .ok { writes := [.keyFile file], rotated := 0, oldVersion := oldVersion, newVersion := newVersion }
  | .invalid =>
      let keyVersion := (vault.load disk).keyVersion
      .ok { writes := [], rotated := 0, oldVersion := keyVersion, newVersion := keyVersion }
  | .json parsed =>
      let counter := walkDecryptCount c (vault.load disk).key [] parsed
      if !counter.failed.isEmpty then .error (abortMessage counter.failed)
      else if counter.n = 0 then
        -- nothing has loaded the key
        let (file, oldVersion, newVersion) := rotateKey vault newKey
        .ok { writes := [.keyFile file], rotated := 0, oldVersion := oldVersion, newVersion := newVersion }
      else
        let (file, oldVersion, newVersion) := rotateKey (vault.load disk) newKey
        let reencrypted := walkReencrypt c newKey newVersion ivs counter.value
        .ok { writes := [.keyFile file, .config reencrypted], rotated := counter.n, oldVersion := oldVersion,
              newVersion := newVersion }

end WrongStack.SecretVault

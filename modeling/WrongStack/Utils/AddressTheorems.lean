import Mathlib.Algebra.Group.Nat.Defs
import WrongStack.Lib.JsString

/-!
# IP address guards

`isPrivateIPv4`, `isPrivateIPv6` and `expandIPv6` (`core/src/utils/ip-guard.ts`).
-/

namespace WrongStack.Utils

open Lib JsString

/-- The value of a digit or a letter, below the radix. -/
def digitValue (radix : Nat) (c : CodeUnit) : Option Nat :=
  if isDigit c && c.toNat - 48 < radix then some (c.toNat - 48)
  else if isLower c && c.toNat - 87 < radix then some (c.toNat - 87)
  else if isUpper c && c.toNat - 55 < radix then some (c.toNat - 55)
  else none

/-- The number that digits denote. -/
def digitsValue (radix : Nat) (digits : JsString) : Nat :=
  digits.foldl (fun n c => radix * n + (digitValue radix c).getD 0) 0

/-- The sign that `parseInt` reads. -/
def isNegative (s : JsString) : Bool := s.head? == some (unit '-')

def dropSign (s : JsString) : JsString :=
  if s.head? == some (unit '-') || s.head? == some (unit '+') then s.tail else s

/-- `Number.parseInt`, or `none` for `NaN`. -/
def parseInt (s : JsString) (radix : Nat) : Option Int :=
  let s := s.dropWhile isSpace
  let unsigned := dropSign s
  let text := if radix = 16 && ((js "0x").isPrefixOf unsigned || (js "0X").isPrefixOf unsigned) then unsigned.drop 2
    else unsigned
  let digits := text.takeWhile fun c => (digitValue radix c).isSome
  if digits.isEmpty then none
  else some (if isNegative s then -digitsValue radix digits else digitsValue radix digits)

def isPrivateIPv4 (addr : JsString) : Bool :=
  match (splitOn (unit '.') addr).map (parseInt · 10) with
  | [some a, some b, some c, some d] =>
      if [a, b, c, d].any fun n => n < 0 || 255 < n then true
      else if a = 0 then true
      else if a = 10 then true
      else if a = 127 then true
      else if a = 169 ∧ b = 254 then true
      else if a = 172 ∧ 16 ≤ b ∧ b ≤ 31 then true
      else if a = 192 ∧ b = 168 then true
      else if a = 192 ∧ b = 0 ∧ c = 0 then true
      else if a = 100 ∧ 64 ≤ b ∧ b ≤ 127 then true
      else decide (224 ≤ a)
  | _ => true

/-- `addr.split('::')` -/
def splitCompression : JsString → List JsString
  | c :: d :: rest =>
      if c = unit ':' ∧ d = unit ':' then [] :: splitCompression rest
      else
        match splitCompression (d :: rest) with
        | part :: parts => (c :: part) :: parts
        | [] => [[c]]
  | rest => [rest]

def parseGroup (g : JsString) : Option Nat :=
  if g.length = 0 ∨ 4 < g.length then none
  else
    match parseInt g 16 with
    | some n => if n < 0 ∨ 0xffff < n then none else some n.toNat
    | none => none

def parseGroups (s : JsString) : Option (List Nat) :=
  if s = [] then some [] else (splitOn (unit ':') s).mapM parseGroup

def expandIPv6 (addr : JsString) : Option (List Nat) :=
  match splitCompression addr with
  | [part] => (parseGroups part).filter fun groups => groups.length = 8
  | [head, tail] => do
      let head ← parseGroups head
      let tail ← parseGroups tail
      if 8 < head.length + tail.length then none
      else some (head ++ List.replicate (8 - head.length - tail.length) 0 ++ tail)
  | _ => none

def dotted (a b c d : Nat) : JsString := js s!"{a}.{b}.{c}.{d}"

/-- The checks of `isPrivateIPv6` on the groups. -/
def isPrivateGroups (groups : List Nat) : Bool :=
  if groups.take 6 = [0, 0, 0, 0, 0, 0xffff] then
    let a := groups.getD 6 0 >>> 8
    let b := groups.getD 6 0 &&& 0xff
    let c := groups.getD 7 0 >>> 8
    let d := groups.getD 7 0 &&& 0xff
    isPrivateIPv4 (dotted a b c d)
  else
    let high := groups.getD 0 0
    if high &&& 0xfe00 = 0xfc00 then true
    else if high &&& 0xffc0 = 0xfe80 then true
    else decide (high &&& 0xff00 = 0xff00)

def isPrivateIPv6 (raw : JsString) : Bool :=
  let lower := toLowerCase raw
  if lower = js "::" ∨ lower = js "::1" then true
  else
    match expandIPv6 lower with
    | none => true
    | some groups => isPrivateGroups groups

example : expandIPv6 (js "fe80::1:2") = some [0xfe80, 0, 0, 0, 0, 0, 1, 2] := by decide +kernel

end WrongStack.Utils

/-!
# Spellings of an IPv6 address

Whatever its spelling, a literal is expanded to the groups of its address. The unspecified address and the loopback
address are recognised in one spelling only.
-/

namespace WrongStack.Utils

open Lib JsString

variable {g s : JsString} {gs : List JsString} {ns : List Nat} {c : CodeUnit} {n v : Nat}

/-! ## Literals -/

/-- One to four hexadecimal digits. -/
def IsGroup (g : JsString) : Prop := g ≠ [] ∧ g.length ≤ 4 ∧ ∀ c ∈ g, (digitValue 16 c).isSome

instance (g : JsString) : Decidable (IsGroup g) :=
  decidable_of_iff (g ≠ [] ∧ g.length ≤ 4 ∧ g.all fun c => (digitValue 16 c).isSome) (by simp only [IsGroup, List.all_eq_true])

/-- A text form of an address: groups of hexadecimal digits, all eight, or with `::` in the place of at least one. -/
structure AddressLiteral where
  head : List JsString
  /-- What stands after `::`, if that is there. -/
  tail : Option (List JsString)
  groups : ∀ g ∈ head ++ tail.getD [], IsGroup g
  length : (tail = none → head.length = 8) ∧ ∀ t ∈ tail, head.length + t.length ≤ 7

namespace AddressLiteral

def text (l : AddressLiteral) : JsString :=
  match l.tail with
  | none => join [unit ':'] l.head
  | some tail => join [unit ':'] l.head ++ js "::" ++ join [unit ':'] tail

/-- The eight groups that the literal spells. -/
def spelled (l : AddressLiteral) : List Nat :=
  match l.tail with
  | none => l.head.map (digitsValue 16)
  | some tail => l.head.map (digitsValue 16) ++ List.replicate (8 - l.head.length - tail.length) 0 ++
      tail.map (digitsValue 16)

/-- The address, a number of 128 bits. -/
def value (l : AddressLiteral) : Nat := l.spelled.foldl (fun v g => 65536 * v + g) 0

end AddressLiteral

/-- The 16-bit groups of an address. -/
def groupsOf (v : Nat) : List Nat := (List.range 8).map fun i => v / 65536 ^ (7 - i) % 65536

/-- The addresses that have to be blocked. -/
def Blocked (v : Nat) : Prop :=
  v = 0 ∨ v = 1 ∨
    -- fc00::/7, fe80::/10 and ff00::/8
    v / 2 ^ 121 = 0x7E ∨ v / 2 ^ 118 = 0x3FA ∨ v / 2 ^ 120 = 0xFF ∨
    -- ::ffff:0:0/96
    v / 2 ^ 32 = 0xFFFF ∧
      isPrivateIPv4 (dotted (v / 2 ^ 24 % 256) (v / 2 ^ 16 % 256) (v / 2 ^ 8 % 256) (v % 256)) = true

/-! ## Digits -/

theorem digit_small (h : digitValue 16 c = some n) : n < 16 := by
  unfold digitValue at h
  split at h
  · rename_i hdigit
    simp at hdigit h
    omega
  · split at h
    · rename_i hlower
      simp at hlower h
      omega
    · split at h
      · rename_i hupper
        simp at hupper h
        omega
      · cases h

theorem digit_of_isSome (h : (digitValue 16 c).isSome) : isDigit c ∨ isLower c ∨ isUpper c := by
  unfold digitValue at h
  split at h
  · rename_i hdigit
    exact .inl (Bool.and_eq_true_iff.mp hdigit).1
  · split at h
    · rename_i hlower
      exact .inr (.inl (Bool.and_eq_true_iff.mp hlower).1)
    · split at h
      · rename_i hupper
        exact .inr (.inr (Bool.and_eq_true_iff.mp hupper).1)
      · cases h

theorem digitsValue_concat (s : JsString) (c : CodeUnit) :
    digitsValue 16 (s ++ [c]) = 16 * digitsValue 16 s + (digitValue 16 c).getD 0 := by
  simp [digitsValue]

theorem digitsValue_lt (s : JsString) : digitsValue 16 s < 16 ^ s.length := by
  induction s using List.reverseRecOn with
  | nil => simp [digitsValue]
  | append_singleton s c ih =>
      rw [digitsValue_concat, List.length_append, List.length_singleton, Nat.pow_succ]
      have hc : (digitValue 16 c).getD 0 < 16 := by
        cases h : digitValue 16 c with
        | none => simp
        | some n => exact digit_small h
      omega

theorem IsGroup.value_lt (h : IsGroup g) : digitsValue 16 g < 65536 := by
  have hpow : 16 ^ g.length ≤ 16 ^ 4 := Nat.pow_le_pow_right (by omega) h.2.1
  have := digitsValue_lt g
  omega

theorem notDigit {d : CodeUnit} (hd : digitValue 16 d = none) (h : ∀ c ∈ g, (digitValue 16 c).isSome) : d ∉ g := by
  intro hmem
  have := h d hmem
  rw [hd] at this
  cases this

theorem notSpace (h : (digitValue 16 c).isSome) : isSpace c = false := by
  have hc := digit_of_isSome h
  simp only [isDigit, isLower, isUpper, unit, Bool.and_eq_true, decide_eq_true_eq, UInt16.le_iff_toNat_le] at hc
  have hrange : 48 ≤ c.toNat ∧ c.toNat ≤ 122 := by
    simp at hc
    omega
  simp only [isSpace, Bool.or_eq_false_iff, Bool.and_eq_false_iff, decide_eq_false_iff_not, UInt16.le_iff_toNat_le,
    beq_eq_false_iff_ne, ne_eq, ← UInt16.toNat_inj]
  simp
  omega

theorem parseInt_group (h : IsGroup g) : parseInt g 16 = some (digitsValue 16 g : Int) := by
  obtain ⟨hne, -, hdigits⟩ := h
  obtain ⟨c, rest, rfl⟩ := List.exists_cons_of_ne_nil hne
  have hc := hdigits c List.mem_cons_self
  have hminus : c ≠ unit '-' := by
    rintro rfl
    exact absurd hc (by decide)
  have hplus : c ≠ unit '+' := by
    rintro rfl
    exact absurd hc (by decide)
  have hspace : (c :: rest).dropWhile isSpace = c :: rest := by
    rw [List.dropWhile_cons, notSpace hc]
    rfl
  have hsign : dropSign (c :: rest) = c :: rest := by simp [dropSign, hminus, hplus]
  have hnegative : isNegative (c :: rest) = false := by simp [isNegative, hminus]
  have hx : ((js "0x").isPrefixOf (c :: rest) || (js "0X").isPrefixOf (c :: rest)) = false := by
    have hx' : unit 'x' ∉ c :: rest := notDigit (by decide) hdigits
    have hX' : unit 'X' ∉ c :: rest := notDigit (by decide) hdigits
    rw [Bool.or_eq_false_iff, Bool.eq_false_iff, Bool.eq_false_iff]
    constructor
    · exact fun h => hx' ((List.isPrefixOf_iff_prefix.mp h).subset (by decide))
    · exact fun h => hX' ((List.isPrefixOf_iff_prefix.mp h).subset (by decide))
  have htake : (c :: rest).takeWhile (fun c => (digitValue 16 c).isSome) = c :: rest :=
    List.takeWhile_eq_self_iff.mpr hdigits
  unfold parseInt
  simp only [hspace, hsign, hnegative, hx, htake, Bool.and_false, Bool.false_eq_true, if_false, List.isEmpty_cons]

theorem parseGroup_group (h : IsGroup g) : parseGroup g = some (digitsValue 16 g) := by
  have hlength : ¬ (g.length = 0 ∨ 4 < g.length) := by
    have hpos := List.length_pos_of_ne_nil h.1
    have hle := h.2.1
    omega
  have hvalue := h.value_lt
  unfold parseGroup
  rw [if_neg hlength, parseInt_group h]
  have hrange : ¬ ((digitsValue 16 g : Int) < 0 ∨ 0xffff < (digitsValue 16 g : Int)) := by omega
  simp only [if_neg hrange, Int.toNat_natCast]

theorem parseGroups_join (h : ∀ g ∈ gs, IsGroup g) :
    parseGroups (join [unit ':'] gs) = some (gs.map (digitsValue 16)) := by
  have hmap : gs.mapM parseGroup = some (gs.map (digitsValue 16)) := by
    induction gs with
    | nil => rfl
    | cons g gs ih =>
        obtain ⟨hg, hgs⟩ := List.forall_mem_cons.mp h
        rw [List.mapM_cons, parseGroup_group hg, ih hgs]
        rfl
  unfold parseGroups
  cases gs with
  | nil => rfl
  | cons g gs =>
      have hne : join [unit ':'] (g :: gs) ≠ [] := by
        have hg := (h g List.mem_cons_self).1
        cases gs with
        | nil => simpa [join] using hg
        | cons g' gs =>
            rw [join_cons]
            simp
      rw [if_neg hne, splitOn_join (by simp) fun s hs => notDigit (by decide) (h s hs).2.2, hmap]

/-! ## Compression -/

theorem split_cons {d : CodeUnit} {rest part : JsString} {parts : List JsString} (h : ¬ (c = unit ':' ∧ d = unit ':'))
    (hrest : splitCompression (d :: rest) = part :: parts) : splitCompression (c :: d :: rest) = (c :: part) :: parts := by
  rw [splitCompression, if_neg h, hrest]

theorem split_group (hg : unit ':' ∉ g) (hne : s ≠ []) (rest : List JsString) {part : JsString}
    (hs : splitCompression s = part :: rest) : splitCompression (g ++ s) = (g ++ part) :: rest := by
  induction g with
  | nil => exact hs
  | cons c g ih =>
      rw [List.mem_cons, not_or] at hg
      have hmore := ih hg.2
      obtain ⟨d, t, ht⟩ : ∃ d t, g ++ s = d :: t := List.exists_cons_of_ne_nil (by simp [hne])
      rw [ht] at hmore
      rw [List.cons_append, ht]
      exact split_cons (fun h => hg.1 h.1.symm) hmore

theorem split_single (hg : unit ':' ∉ g) : splitCompression g = [g] := by
  induction g with
  | nil => rfl
  | cons c g ih =>
      rw [List.mem_cons, not_or] at hg
      cases g with
      | nil => rfl
      | cons d g => exact split_cons (fun h => hg.1 h.1.symm) (ih hg.2)

/-- A group, a single colon and a text that begins with a group. -/
theorem split_colon (hg : unit ':' ∉ g) (hs : s.head? ≠ some (unit ':')) {part : JsString} {rest : List JsString}
    (hne : s ≠ []) (hsplit : splitCompression s = part :: rest) :
    splitCompression (g ++ unit ':' :: s) = (g ++ unit ':' :: part) :: rest := by
  obtain ⟨d, t, rfl⟩ := List.exists_cons_of_ne_nil hne
  have hd : d ≠ unit ':' := by simpa using hs
  exact split_group hg (by simp) rest (split_cons (fun h => hd h.2) hsplit)

theorem IsGroup.colon (h : IsGroup g) : unit ':' ∉ g := notDigit (by decide) h.2.2

theorem join_one (g : JsString) : join [unit ':'] [g] = g := by simp [join]

theorem head_join (h : ∀ g ∈ gs, IsGroup g) (hgs : gs ≠ []) (rest : JsString) :
    (join [unit ':'] gs ++ rest).head? ≠ some (unit ':') ∧ join [unit ':'] gs ++ rest ≠ [] := by
  obtain ⟨g, gs, rfl⟩ := List.exists_cons_of_ne_nil hgs
  have hg := h g List.mem_cons_self
  have hcolon := hg.colon
  obtain ⟨c, g, rfl⟩ := List.exists_cons_of_ne_nil hg.1
  rw [List.mem_cons, not_or] at hcolon
  cases gs with
  | nil => simp [join_one, Ne.symm hcolon.1]
  | cons g' gs => simp [join_cons, Ne.symm hcolon.1]

/-- Groups that are joined with single colons, alone. -/
theorem split_join (h : ∀ g ∈ gs, IsGroup g) : splitCompression (join [unit ':'] gs) = [join [unit ':'] gs] := by
  induction gs with
  | nil => rfl
  | cons g gs ih =>
      obtain ⟨hg, hgs⟩ := List.forall_mem_cons.mp h
      cases gs with
      | nil =>
          rw [join_one]
          exact split_single hg.colon
      | cons g' gs =>
          obtain ⟨hhead, hne⟩ := head_join hgs (by simp) []
          rw [List.append_nil] at hhead hne
          rw [join_cons]
          exact split_colon hg.colon hhead hne (ih hgs)

theorem split_compressed (h : ∀ g ∈ gs, IsGroup g) (rest : JsString) :
    splitCompression (join [unit ':'] gs ++ (js "::" ++ rest)) = join [unit ':'] gs :: splitCompression rest := by
  have hend : splitCompression (js "::" ++ rest) = [] :: splitCompression rest := by
    change splitCompression (unit ':' :: unit ':' :: rest) = _
    rw [splitCompression, if_pos ⟨rfl, rfl⟩]
  induction gs with
  | nil => exact hend
  | cons g gs ih =>
      obtain ⟨hg, hgs⟩ := List.forall_mem_cons.mp h
      cases gs with
      | nil =>
          rw [join_one, split_group hg.colon (List.append_ne_nil_of_left_ne_nil (by decide) rest) _ hend, List.append_nil]
      | cons g' gs =>
          obtain ⟨hhead, hne⟩ := head_join hgs (by simp) (js "::" ++ rest)
          rw [join_cons, List.append_assoc, List.cons_append]
          exact split_colon hg.colon hhead hne (ih hgs)

/-! ## Expansion -/

theorem expandIPv6_text (l : AddressLiteral) : expandIPv6 l.text = some l.spelled := by
  obtain ⟨head, tail, hgroups, hfull, hcompressed⟩ := l
  have hhead : ∀ g ∈ head, IsGroup g := fun g hg => hgroups g (List.mem_append_left _ hg)
  cases tail with
  | none =>
      simp only [AddressLiteral.text, AddressLiteral.spelled, expandIPv6, split_join hhead, parseGroups_join hhead]
      simp [hfull rfl]
  | some tail =>
      have htail : ∀ g ∈ tail, IsGroup g := fun g hg => hgroups g (List.mem_append_right _ hg)
      have hlength := hcompressed tail rfl
      have hfits : ¬ 8 < head.length + tail.length := by omega
      simp only [AddressLiteral.text, AddressLiteral.spelled, expandIPv6, List.append_assoc, split_compressed hhead,
        split_join htail, parseGroups_join hhead, parseGroups_join htail, Option.bind_eq_bind, Option.bind_some,
        List.length_map, if_neg hfits]

theorem AddressLiteral.spelled_length (l : AddressLiteral) : l.spelled.length = 8 := by
  obtain ⟨head, tail, hgroups, hfull, hcompressed⟩ := l
  cases tail with
  | none => simpa [AddressLiteral.spelled] using hfull rfl
  | some tail =>
      have hlength := hcompressed tail rfl
      simp [AddressLiteral.spelled]
      omega

theorem AddressLiteral.spelled_lt (l : AddressLiteral) : ∀ n ∈ l.spelled, n < 65536 := by
  obtain ⟨head, tail, hgroups, hfull, hcompressed⟩ := l
  have hmap {gs : List JsString} (h : ∀ g ∈ gs, IsGroup g) : ∀ n ∈ gs.map (digitsValue 16), n < 65536 := by
    intro n hn
    obtain ⟨g, hg, rfl⟩ := List.mem_map.mp hn
    exact (h g hg).value_lt
  cases tail with
  | none => exact hmap fun g hg => hgroups g (List.mem_append_left _ hg)
  | some tail =>
      intro n hn
      rcases List.mem_append.mp hn with hn | hn
      · rcases List.mem_append.mp hn with hn | hn
        · exact hmap (fun g hg => hgroups g (List.mem_append_left _ hg)) n hn
        · rw [List.eq_of_mem_replicate hn]
          omega
      · exact hmap (fun g hg => hgroups g (List.mem_append_right _ hg)) n hn

theorem AddressLiteral.exists_groups (l : AddressLiteral) : ∃ a b c d e f g h : Nat, l.spelled = [a, b, c, d, e, f, g, h] ∧
    a < 65536 ∧ b < 65536 ∧ c < 65536 ∧ d < 65536 ∧ e < 65536 ∧ f < 65536 ∧ g < 65536 ∧ h < 65536 := by
  have hlength := l.spelled_length
  have hlt := l.spelled_lt
  match hs : l.spelled, hlength with
  | [a, b, c, d, e, f, g, h], _ =>
      rw [hs] at hlt
      exact ⟨a, b, c, d, e, f, g, h, rfl, hlt a (by simp), hlt b (by simp), hlt c (by simp), hlt d (by simp),
        hlt e (by simp), hlt f (by simp), hlt g (by simp), hlt h (by simp)⟩

theorem digits_foldl (h : ∀ n ∈ ns, n < 65536) : (List.range ns.length).map
    (fun i => ns.foldl (fun v g => 65536 * v + g) 0 / 65536 ^ (ns.length - 1 - i) % 65536) = ns := by
  induction ns using List.reverseRecOn with
  | nil => rfl
  | append_singleton ns n ih =>
      rw [List.forall_mem_append, List.forall_mem_singleton] at h
      rw [List.foldl_append, List.length_append, List.length_singleton, List.range_succ, List.map_append]
      simp only [List.foldl_cons, List.foldl_nil, List.map_cons, List.map_nil, Nat.add_sub_cancel, Nat.sub_self,
        Nat.pow_zero, Nat.div_one]
      have hlast : (65536 * ns.foldl (fun v g => 65536 * v + g) 0 + n) % 65536 = n := by omega
      rw [hlast]
      congr 1
      refine Eq.trans (List.map_congr_left fun i hi => ?_) (ih h.1)
      have hi := List.mem_range.mp hi
      have hpow : 65536 ^ (ns.length - i) = 65536 * 65536 ^ (ns.length - 1 - i) := by
        rw [← Nat.pow_succ']
        congr 1
        omega
      have hdiv : (65536 * ns.foldl (fun v g => 65536 * v + g) 0 + n) / 65536 = ns.foldl (fun v g => 65536 * v + g) 0 := by
        omega
      rw [hpow, ← Nat.div_div_eq_div_mul, hdiv]

theorem groupsOf_value (l : AddressLiteral) : groupsOf l.value = l.spelled := by
  have hdigits := digits_foldl l.spelled_lt
  rwa [l.spelled_length] at hdigits

/-! ## Ranges -/

theorem and_shift {n k a m : Nat} (hm : m % 2 ^ k = 0) (hn : n / 2 ^ k = a) : n &&& m = (a &&& m / 2 ^ k) * 2 ^ k := by
  have hdiv : (n &&& m) / 2 ^ k = a &&& m / 2 ^ k := by rw [Nat.and_div_two_pow, hn]
  have hmod : (n &&& m) % 2 ^ k = 0 := by rw [Nat.and_mod_two_pow, hm, Nat.and_zero]
  rw [← hdiv, Nat.div_mul_cancel (Nat.dvd_of_mod_eq_zero hmod)]

theorem foldl_div (h : ∀ n ∈ ns, n < 65536) (a : Nat) :
    ns.foldl (fun v g => 65536 * v + g) a / 65536 ^ ns.length = a := by
  induction ns using List.reverseRecOn with
  | nil => simp
  | append_singleton ns n ih =>
      rw [List.forall_mem_append, List.forall_mem_singleton] at h
      rw [List.foldl_append, List.length_append, List.length_singleton, Nat.pow_succ', ← Nat.div_div_eq_div_mul]
      have hdiv : (65536 * ns.foldl (fun v g => 65536 * v + g) a + n) / 65536 = ns.foldl (fun v g => 65536 * v + g) a := by
        omega
      simp only [List.foldl_cons, List.foldl_nil, hdiv]
      exact ih h.1

/-- An address that has to be blocked is, if it is neither unspecified nor loopback. -/
theorem isPrivateGroups_spelled (l : AddressLiteral) (hblocked : Blocked l.value) (hzero : l.value ≠ 0)
    (hone : l.value ≠ 1) : isPrivateGroups l.spelled = true := by
  obtain ⟨a, b, c, d, e, f, g, h, hs, ha, hb, hc, hd, he, hf, hg, hh⟩ := l.exists_groups
  have hvalue : l.value =
      [g, h].foldl (fun v g => 65536 * v + g) ([a, b, c, d, e, f].foldl (fun v g => 65536 * v + g) 0) := by
    rw [AddressLiteral.value, hs]
    rfl
  have hfirst : l.value / 65536 ^ 7 = a := by
    have hdiv := @foldl_div [b, c, d, e, f, g, h] (by simp [hb, hc, hd, he, hf, hg, hh]) (65536 * 0 + a)
    have hall : l.value = [b, c, d, e, f, g, h].foldl (fun v g => 65536 * v + g) (65536 * 0 + a) := by
      rw [AddressLiteral.value, hs, List.foldl_cons]
    rw [← hall, Nat.mul_zero, Nat.zero_add] at hdiv
    exact hdiv
  have hhigh : l.value / 65536 ^ 2 = [a, b, c, d, e, f].foldl (fun v g => 65536 * v + g) 0 := by
    have hdiv := @foldl_div [g, h] (by simp [hg, hh]) ([a, b, c, d, e, f].foldl (fun v g => 65536 * v + g) 0)
    rw [← hvalue] at hdiv
    exact hdiv
  have hrange {k m : Nat} (hk : l.value / 2 ^ (112 + k) = m) : a / 2 ^ k = m := by
    have hpow : 65536 ^ 7 = 2 ^ 112 := by decide
    rw [← hk, Nat.pow_add, ← Nat.div_div_eq_div_mul, ← hfirst, hpow]
  unfold isPrivateGroups
  rw [hs]
  split
  · rename_i hmapped
    simp only [List.take, List.cons.injEq, and_true] at hmapped
    obtain ⟨rfl, rfl, rfl, rfl, rfl, rfl⟩ := hmapped
    rcases hblocked with hv | hv | hv | hv | hv | ⟨-, hprivate⟩
    · exact absurd hv hzero
    · exact absurd hv hone
    · exact absurd (hrange (k := 9) hv) (by decide)
    · exact absurd (hrange (k := 6) hv) (by decide)
    · exact absurd (hrange (k := 8) hv) (by decide)
    · have hvalue : l.value = 65536 * (65536 * 65535 + g) + h := hvalue
      have hA : l.value / 2 ^ 24 % 256 = g >>> 8 := by
        rw [Nat.shiftRight_eq_div_pow]
        omega
      have hB : l.value / 2 ^ 16 % 256 = g &&& 0xff := by
        rw [Nat.and_two_pow_sub_one_eq_mod g 8]
        omega
      have hC : l.value / 2 ^ 8 % 256 = h >>> 8 := by
        rw [Nat.shiftRight_eq_div_pow]
        omega
      have hD : l.value % 256 = h &&& 0xff := by
        rw [Nat.and_two_pow_sub_one_eq_mod h 8]
        omega
      rw [hA, hB, hC, hD] at hprivate
      exact hprivate
  · rename_i hmapped
    rcases hblocked with hv | hv | hv | hv | hv | ⟨hv, -⟩
    · exact absurd hv hzero
    · exact absurd hv hone
    · have hmask := and_shift (n := a) (k := 9) (m := 0xfe00) rfl (hrange hv)
      simp [hmask]
    · have hmask := and_shift (n := a) (k := 6) (m := 0xffc0) rfl (hrange hv)
      simp [hmask]
    · have hmask := and_shift (n := a) (k := 8) (m := 0xff00) rfl (hrange hv)
      simp [hmask]
    · refine absurd ?_ hmapped
      have hsum := hhigh.symm.trans hv
      simp only [List.foldl_cons, List.foldl_nil] at hsum
      simp only [List.take, List.cons.injEq, and_true]
      omega

/-! ## Case -/

/-- The lower case of a digit. -/
def lowerDigit (c : CodeUnit) : CodeUnit := if isUpper c then c + 32 else c

theorem toLowerCase_append (s t : JsString) : toLowerCase (s ++ t) = toLowerCase s ++ toLowerCase t :=
  List.flatMap_append

theorem digitValue_of_range (radix : Nat) (c : CodeUnit) : digitValue radix c =
    if (48 ≤ c.toNat ∧ c.toNat ≤ 57) ∧ c.toNat - 48 < radix then some (c.toNat - 48)
    else if (97 ≤ c.toNat ∧ c.toNat ≤ 122) ∧ c.toNat - 87 < radix then some (c.toNat - 87)
    else if (65 ≤ c.toNat ∧ c.toNat ≤ 90) ∧ c.toNat - 55 < radix then some (c.toNat - 55)
    else none := by
  simp only [digitValue, isDigit, isLower, isUpper, Bool.and_eq_true, decide_eq_true_eq, UInt16.le_iff_toNat_le]
  rfl

theorem digitValue_lowerDigit (c : CodeUnit) : digitValue 16 (lowerDigit c) = digitValue 16 c := by
  unfold lowerDigit
  split
  · rename_i hupper
    simp only [isUpper, Bool.and_eq_true, decide_eq_true_eq, UInt16.le_iff_toNat_le] at hupper
    have hbounds : 65 ≤ c.toNat ∧ c.toNat ≤ 90 := hupper
    have hsum : (c + 32).toNat = c.toNat + 32 := by
      rw [UInt16.toNat_add]
      simp
      omega
    rw [digitValue_of_range, digitValue_of_range, hsum, if_neg (by omega)]
    split
    · rw [if_neg (by omega), if_neg (by omega), if_pos (by omega)]
      congr 1
    · rw [if_neg (by omega), if_neg (by omega), if_neg (by omega), if_neg (by omega)]
  · rfl

theorem toLowerCase_digits (h : ∀ c ∈ g, (digitValue 16 c).isSome) : toLowerCase g = g.map lowerDigit := by
  induction g with
  | nil => rfl
  | cons c g ih =>
      obtain ⟨hc, hg⟩ := List.forall_mem_cons.mp h
      have hkelvin : c ≠ 0x212A := by
        rintro rfl
        exact absurd hc (by decide)
      have hdotted : c ≠ 0x130 := by
        rintro rfl
        exact absurd hc (by decide)
      have hfirst : toLowerCase [c] = [lowerDigit c] := by
        unfold lowerDigit
        cases hupper : isUpper c <;> simp [toLowerCase, hupper, hkelvin, hdotted]
      rw [← List.singleton_append, toLowerCase_append, hfirst, ih hg]
      rfl

theorem IsGroup.lower (h : IsGroup g) : IsGroup (g.map lowerDigit) := by
  refine ⟨by simpa using h.1, by simpa using h.2.1, fun c hc => ?_⟩
  obtain ⟨d, hd, rfl⟩ := List.mem_map.mp hc
  rw [digitValue_lowerDigit d]
  exact h.2.2 d hd

theorem digitsValue_lower (g : JsString) : digitsValue 16 (g.map lowerDigit) = digitsValue 16 g := by
  induction g using List.reverseRecOn with
  | nil => rfl
  | append_singleton g c ih =>
      rw [List.map_append, List.map_singleton, digitsValue_concat, digitsValue_concat, ih, digitValue_lowerDigit c]

theorem toLowerCase_join (h : ∀ g ∈ gs, IsGroup g) :
    toLowerCase (join [unit ':'] gs) = join [unit ':'] (gs.map (List.map lowerDigit)) := by
  induction gs with
  | nil => rfl
  | cons g gs ih =>
      obtain ⟨hg, hgs⟩ := List.forall_mem_cons.mp h
      cases gs with
      | nil =>
          rw [List.map_singleton, join_one, join_one]
          exact toLowerCase_digits hg.2.2
      | cons g' gs =>
          have hcolon (s : JsString) : toLowerCase (unit ':' :: s) = unit ':' :: toLowerCase s := rfl
          rw [join_cons, toLowerCase_append, toLowerCase_digits hg.2.2, hcolon, ih hgs, List.map_cons, List.map_cons,
            List.map_cons, join_cons]

theorem map_lower (gs : List JsString) :
    (gs.map (List.map lowerDigit)).map (digitsValue 16) = gs.map (digitsValue 16) := by
  rw [List.map_map]
  exact List.map_congr_left fun g _ => digitsValue_lower g

/-- A literal in lower case is one of the same groups. -/
theorem AddressLiteral.exists_lower (l : AddressLiteral) :
    ∃ l' : AddressLiteral, l'.text = toLowerCase l.text ∧ l'.spelled = l.spelled := by
  obtain ⟨head, tail, hgroups, hfull, hcompressed⟩ := l
  have hlower (gs : List JsString) (h : ∀ g ∈ gs, IsGroup g) : ∀ g ∈ gs.map (List.map lowerDigit), IsGroup g := by
    intro g hg
    obtain ⟨g, hmem, rfl⟩ := List.mem_map.mp hg
    exact (h g hmem).lower
  have hhead : ∀ g ∈ head, IsGroup g := fun g hg => hgroups g (List.mem_append_left _ hg)
  cases tail with
  | none =>
      refine ⟨⟨head.map (List.map lowerDigit), none, ?_, by simpa using hfull, by simp⟩, ?_, ?_⟩
      · simpa using hlower head hhead
      · exact (toLowerCase_join hhead).symm
      · exact map_lower head
  | some tail =>
      have htail : ∀ g ∈ tail, IsGroup g := fun g hg => hgroups g (List.mem_append_right _ hg)
      refine ⟨⟨head.map (List.map lowerDigit), some (tail.map (List.map lowerDigit)), ?_, by simp, ?_⟩, ?_, ?_⟩
      · exact List.forall_mem_append.mpr ⟨hlower head hhead, hlower tail htail⟩
      · simpa using hcompressed
      · simp only [AddressLiteral.text, toLowerCase_append, toLowerCase_join hhead, toLowerCase_join htail]
        rfl
      · simp only [AddressLiteral.spelled, map_lower, List.length_map]

/-! ## Spellings -/

/-- An address that is neither unspecified nor loopback is judged by its groups. -/
theorem isPrivateIPv6_text (l : AddressLiteral) (hzero : l.value ≠ 0) (hone : l.value ≠ 1) :
    isPrivateIPv6 l.text = isPrivateGroups l.spelled := by
  obtain ⟨l', htext, hspelled⟩ := l.exists_lower
  have hexpand : expandIPv6 (toLowerCase l.text) = some l.spelled := by
    rw [← htext, ← hspelled]
    exact expandIPv6_text l'
  have hnot : ¬ (toLowerCase l.text = js "::" ∨ toLowerCase l.text = js "::1") := by
    rintro (h | h)
    · have hgroups : some l.spelled = some [0, 0, 0, 0, 0, 0, 0, 0] := by
        rw [← hexpand, h]
        decide +kernel
      exact hzero (by rw [AddressLiteral.value, Option.some.inj hgroups]; rfl)
    · have hgroups : some l.spelled = some [0, 0, 0, 0, 0, 0, 0, 1] := by
        rw [← hexpand, h]
        decide +kernel
      exact hone (by rw [AddressLiteral.value, Option.some.inj hgroups]; rfl)
  unfold isPrivateIPv6
  simp only [if_neg hnot, hexpand]

/-- The literal is expanded to the groups of its address, blocked if the address has to be, and judged as every other
literal of the address is. -/
def Sound (l : AddressLiteral) : Prop :=
  expandIPv6 l.text = some (groupsOf l.value) ∧ (Blocked l.value → isPrivateIPv6 l.text = true) ∧
    ∀ l' : AddressLiteral, l'.value = l.value → isPrivateIPv6 l'.text = isPrivateIPv6 l.text

/-- `0::` -/
def unspecified : AddressLiteral := ⟨[js "0"], some [], by decide +kernel, by decide +kernel⟩

/-- `0:0:0:0:0:0:0:1` -/
def loopback : AddressLiteral :=
  ⟨[js "0", js "0", js "0", js "0", js "0", js "0", js "0", js "1"], none, by decide +kernel, by decide +kernel⟩

theorem sound_iff (l : AddressLiteral) : Sound l ↔ l.value ≠ 0 ∧ l.value ≠ 1 := by
  constructor
  · rintro ⟨-, hblocked, hsame⟩
    constructor
    · intro hzero
      have hanswer := hsame unspecified (by rw [hzero]; decide +kernel)
      rw [hblocked (.inl hzero)] at hanswer
      exact absurd hanswer (by decide +kernel)
    · intro hone
      have hanswer := hsame loopback (by rw [hone]; decide +kernel)
      rw [hblocked (.inr (.inl hone))] at hanswer
      exact absurd hanswer (by decide +kernel)
  · rintro ⟨hzero, hone⟩
    refine ⟨?_, fun hblocked => ?_, fun l' hvalue => ?_⟩
    · rw [groupsOf_value]
      exact expandIPv6_text l
    · rw [isPrivateIPv6_text l hzero hone]
      exact isPrivateGroups_spelled l hblocked hzero hone
    · rw [isPrivateIPv6_text l hzero hone, isPrivateIPv6_text l' (hvalue ▸ hzero) (hvalue ▸ hone), ← groupsOf_value,
        ← groupsOf_value, hvalue]

/-- The loopback address, written out, is taken for a public one. -/
theorem loopback_public : loopback.value = 1 ∧ isPrivateIPv6 loopback.text = false ∧ ¬ Sound loopback := by
  have hvalue : loopback.value = 1 := by decide +kernel
  have hpublic : isPrivateIPv6 loopback.text = false := by decide +kernel
  refine ⟨hvalue, hpublic, fun hsound => ?_⟩
  have hblocked := hsound.2.1 (.inr (.inl hvalue))
  rw [hpublic] at hblocked
  cases hblocked

end WrongStack.Utils

import Shroud.Json.Writer
import Shroud.Proofs.RoundTrip

/-! # JSON values survive their text

What the writer spreads over lines is cut into the tokens of the value, whatever the indentation, and
the tokens are read as the value. Strings may hold any characters, numbers are those of 64 bits.
-/

namespace Shroud.Json

/-! ## Cutting text into tokens -/

namespace Token

variable {c : Char} {ts : List Token} {cs : List Char} {n : Nat} {tss : List (List Token)}
  {t : Token} {items : List String} {rest : List Char} {us : List Token} {ds b : List Char}

/-- A text is cut into tokens. -/
def Scans (cs : List Char) (ts : List Token) : Prop :=
  ∀ n, cs.length ≤ n → tokensWithin n cs = some ts

theorem scans_nil : Scans [] [] := by
  intro n _
  cases n <;> rfl

/-- One token, or a blank, before the others. -/
theorem Scans.next {t : Option Token} (hc : next? c cs = some (t, rest))
    (hlen : rest.length ≤ cs.length) (h : Scans rest ts) : Scans (c :: cs) (t.toList ++ ts)
  | 0, hn => absurd hn (by simp)
  | n + 1, hn => by
    rw [List.length_cons, Nat.add_le_add_iff_right] at hn
    have hrest := h n (Nat.le_trans hlen hn)
    cases t <;> simp [tokensWithin, hc, hrest]

/-- A text cannot go on with the characters of a number. -/
def Breaks (cs : List Char) : Prop := ∀ c ∈ cs.head?, isNumberChar c = false

/-- A text stands for some tokens before whatever ends them. -/
def Scanned (text : List Char) (ts : List Token) : Prop :=
  ∀ rest us, Breaks rest → Scans rest us → Scans (text ++ rest) (ts ++ us)

theorem Scanned.blanks {text blanks : List Char} (h : Scanned text ts)
    (hb : ∀ c ∈ blanks, isBlank c = true) : Scanned (blanks ++ text) ts := by
  intro rest us hrest hus
  induction blanks with
  | nil => exact h _ _ hrest hus
  | cons c blanks ih =>
    rw [List.forall_mem_cons] at hb
    exact Scans.next (if_pos hb.1) (Nat.le_refl _) (ih hb.2)

/-- A character that is a token of its own. -/
def IsMark (c : Char) (t : Token) : Prop :=
  isNumberChar c = false ∧ ∀ rest, next? c rest = some (some t, rest)

theorem Scans.mark (hc : IsMark c t) (h : Scans cs ts) : Scans (c :: cs) (t :: ts) :=
  Scans.next (hc.2 cs) (Nat.le_refl _) h

/-! ### String literals -/

theorem hexDigit?_hexChar (h : n < 16) : hexDigit? (hexChar n) = some n := by
  have hall : ∀ m : Fin 16, hexDigit? (hexChar m) = some m.val := by decide
  exact hall ⟨n, h⟩

/-- The element that a written character is read as. -/
def element (c : Char) : Element :=
  if c.toNat < 0x20 ∧ c ≠ '\n' ∧ c ≠ '\r' ∧ c ≠ '\t' ∧ c.toNat ≠ 8 ∧ c.toNat ≠ 12 then .unit c.toNat
  else .plain c

theorem elements?_escapeChar (c : Char) {tail : List Char} {es : List Element}
    (h : elements? rest = some (es, tail)) :
    elements? (escapeChar c ++ rest) = some (element c :: es, tail) := by
  unfold escapeChar
  split
  · simp [elements?, escaped?, element, h]
  · simp [elements?, escaped?, element, h]
  · simp [elements?, escaped?, element, h]
  · simp [elements?, escaped?, element, h]
  · simp [elements?, escaped?, element, h]
  rename_i hquote hslash hn hr ht
  split
  · rename_i h8
    obtain rfl : c = '\x08' := Char.toNat_inj.1 (by simpa using h8)
    simp [elements?, escaped?, element, h]
  split
  · rename_i h12
    obtain rfl : c = '\x0c' := Char.toNat_inj.1 (by simpa using h12)
    simp [elements?, escaped?, element, h]
  split
  · rename_i h8 h12 hcontrol
    have hhigh := hexDigit?_hexChar (n := c.toNat / 16) (by omega)
    have hlow := hexDigit?_hexChar (n := c.toNat % 16) (by omega)
    have hunit : hexUnit? '0' '0' (hexChar (c.toNat / 16)) (hexChar (c.toNat % 16)) =
        some c.toNat := by
      have hzero : hexDigit? '0' = some 0 := by decide
      simp only [hexUnit?, hzero, hhigh, hlow, Option.bind_eq_bind, Option.bind_some, Option.pure_def]
      exact congrArg some (by omega)
    have helement : element c = .unit c.toNat :=
      if_pos ⟨hcontrol, hn, hr, ht, by simpa using h8, by simpa using h12⟩
    simp [elements?, hunit, h, helement]
  · rename_i hcontrol
    have helement : element c = .plain c := if_neg fun hc => hcontrol hc.1
    rw [List.singleton_append, elements?]
    · have hplain : (c != '\\' && decide (0x20 ≤ c.toNat)) = true := by
        simpa using ⟨hslash, by omega⟩
      simp [h, helement, hplain]
    all_goals grind

theorem elements?_flatMap (cs rest : List Char) :
    elements? (cs.flatMap escapeChar ++ '"' :: rest) = some (cs.map element, rest) := by
  induction cs with
  | nil => rfl
  | cons c cs ih =>
    rw [List.flatMap_cons, List.append_assoc]
    exact elements?_escapeChar c ih

/-- The unit of a control character is no surrogate. -/
theorem characters?_unit (h : n < 0x20) (es : List Element) :
    characters? (.unit n :: es) = (characters? es).map (Char.ofNat n :: ·) := by
  have hhigh : isHighSurrogate n = false := by
    simp only [isHighSurrogate, Bool.and_eq_false_iff, decide_eq_false_iff_not]
    omega
  have hlow : isLowSurrogate n = false := by
    simp only [isLowSurrogate, Bool.and_eq_false_iff, decide_eq_false_iff_not]
    omega
  cases es with
  | nil => simp [characters?, hhigh, hlow]
  | cons e es => cases e <;> simp [characters?, hhigh, hlow]

theorem characters?_element (cs : List Char) : characters? (cs.map element) = some cs := by
  induction cs with
  | nil => rfl
  | cons c cs ih =>
    rw [List.map_cons, element]
    split
    · rename_i h
      rw [characters?_unit h.1, ih, Char.ofNat_toNat]
      rfl
    · rw [characters?, ih]
      rfl

theorem scanned_quote (s : String) : Scanned (quote s).toList [.text (some s)] := by
  intro rest us _ hus
  have htext : (quote s).toList ++ rest = '"' :: (s.toList.flatMap escapeChar ++ '"' :: rest) := by
    simp [quote]
  rw [htext]
  refine Scans.next (t := some (.text (some s))) ?_ ?_ hus
  · simp [next?, isBlank, elements?_flatMap, characters?_element]
  · rw [List.length_append, List.length_cons]
    omega

/-! ### Numbers -/

theorem next?_of_isNumberChar (hc : isNumberChar c = true) (cs : List Char) :
    next? c cs = (number? (c :: cs.takeWhile isNumberChar)).map fun j =>
      (some (.word j), cs.dropWhile isNumberChar) := by
  have hblank : isBlank c = false := by
    by_contra h
    simp only [isBlank, Bool.not_eq_false, Bool.or_eq_true, beq_iff_eq] at h
    rcases h with ((rfl | rfl) | rfl) | rfl <;> exact absurd hc (by decide)
  unfold next?
  rw [hblank, if_neg Bool.false_ne_true]
  split <;> try exact absurd hc (by decide)
  cases number? (c :: cs.takeWhile isNumberChar) <;> rfl

/-- A number is read up to what ends it. -/
theorem scanned_number {j : Json} (h : ∀ d ∈ c :: cs, isNumberChar d = true)
    (hj : number? (c :: cs) = some j) : Scanned (c :: cs) [.word j] := by
  intro rest us hrest hus
  rw [List.forall_mem_cons] at h
  have htake : (cs ++ rest).takeWhile isNumberChar = cs := by
    rw [List.takeWhile_append_of_pos h.2]
    cases rest with
    | nil => simp
    | cons d rest => simp [hrest d rfl]
  have hdrop : (cs ++ rest).dropWhile isNumberChar = rest := by
    rw [List.dropWhile_append_of_pos h.2]
    cases rest with
    | nil => rfl
    | cons d rest => simp [hrest d rfl]
  rw [List.cons_append]
  refine Scans.next (t := some (.word j)) ?_ ?_ hus
  · rw [next?_of_isNumberChar h.1, htake, hdrop, hj]
    rfl
  · rw [List.length_append]
    omega

theorem head?_toDigits (h : 0 < n) : (Nat.toDigits 10 n).head? ≠ some '0' := by
  induction n using Nat.strongRecOn with
  | ind n ih =>
    by_cases hn : n < 10
    · rw [Nat.toDigits_of_lt_base hn]
      have hall : ∀ m : Fin 10, 0 < m.val → [m.val.digitChar].head? ≠ some '0' := by decide
      exact hall ⟨n, hn⟩ h
    · rw [Nat.toDigits_of_base_le (by decide) (by omega), List.head?_append]
      have hrec := ih (n / 10) (by omega) (by omega)
      cases hd : (Nat.toDigits 10 (n / 10)).head? with
      | none => exact absurd (List.head?_eq_none_iff.1 hd) Nat.toDigits_ne_nil
      | some d =>
        rw [hd] at hrec
        exact hrec

theorem foldl_digits (cs : List Char) (acc : Nat) :
    cs.foldl (fun acc d => 10 * acc + Text.digitValue d) acc = Nat.ofDigitChars 10 cs acc := by
  induction cs generalizing acc with
  | nil => rfl
  | cons c cs ih =>
    rw [List.foldl_cons, Nat.ofDigitChars_cons, ih]
    rfl

theorem isDigit_of_mem (h : c ∈ Nat.toDigits 10 n) : Text.isDigit c = true := by
  have hc := Nat.isDigit_of_mem_toDigits (by decide) (by decide) h
  simpa [Text.isDigit, Char.isDigit, Char.le_def] using hc

theorem isPlainDigits_toDigits (n : Nat) : isPlainDigits (Nat.toDigits 10 n) = true := by
  have hzero : (Nat.toDigits 10 n).head? ≠ some '0' ∨ (Nat.toDigits 10 n).length = 1 := by
    rcases Nat.eq_zero_or_pos n with rfl | hn
    · exact .inr (by decide)
    · exact .inl (head?_toDigits hn)
  have hall : (Nat.toDigits 10 n).all Text.isDigit = true := List.all_eq_true.2 fun c => isDigit_of_mem
  simpa [isPlainDigits, hall, Nat.toDigits_ne_nil] using hzero

theorem number?_negative (hd : ∀ c ∈ ds, Text.isDigit c = true) (hp : isPlainDigits ds = true)
    (hpos : 0 < Nat.ofDigitChars 10 ds 0) (hw : isWord (-(Nat.ofDigitChars 10 ds 0 : Int)) = true) :
    number? ('-' :: ds) = some (.int (-(Nat.ofDigitChars 10 ds 0 : Int))) := by
  have htake : ds.takeWhile Text.isDigit = ds := List.takeWhile_eq_self_iff.2 hd
  have hdrop : ds.dropWhile Text.isDigit = [] := List.dropWhile_eq_nil_iff.2 hd
  simp [number?, htake, hdrop, hp, isTail, foldl_digits, hw, hpos.ne']

theorem number?_natural (hd : ∀ c ∈ ds, Text.isDigit c = true) (hp : isPlainDigits ds = true)
    (hw : isWord (Nat.ofDigitChars 10 ds 0 : Int) = true) :
    number? ds = some (.int (Nat.ofDigitChars 10 ds 0 : Int)) := by
  have htake : ds.takeWhile Text.isDigit = ds := List.takeWhile_eq_self_iff.2 hd
  have hdrop : ds.dropWhile Text.isDigit = [] := List.dropWhile_eq_nil_iff.2 hd
  unfold number?
  split
  rename_i negative body hsign
  split at hsign
  · exact absurd (hd '-' List.mem_cons_self) (by decide)
  · obtain ⟨rfl, rfl⟩ := Prod.mk.inj hsign
    simp [htake, hdrop, hp, isTail, foldl_digits, hw]

/-- Integers of 64 bits are read from their decimals. -/
theorem scanned_decimal {n : Int} (h : isWord n = true) :
    Scanned (Text.decimal n).toList [.word (.int n)] := by
  have hchar : ∀ m, ∀ c ∈ Nat.toDigits 10 m, isNumberChar c = true := by
    intro m c hc
    rw [isNumberChar, isDigit_of_mem hc]
    rfl
  have hdigits : ∀ m, ∀ c ∈ Nat.toDigits 10 m, Text.isDigit c = true := fun m c => isDigit_of_mem
  cases n with
  | ofNat m =>
    have hnumber := number?_natural (hdigits m) (isPlainDigits_toDigits m)
    rw [Nat.ofDigitChars_ten_toDigits] at hnumber
    rw [Text.decimal, Nat.repr, String.toList_ofList]
    cases hcs : Nat.toDigits 10 m with
    | nil => exact absurd hcs Nat.toDigits_ne_nil
    | cons c cs =>
      rw [hcs] at hnumber
      exact scanned_number (hcs ▸ hchar m) (hnumber h)
  | negSucc m =>
    have hnumber := number?_negative (hdigits (m + 1)) (isPlainDigits_toDigits (m + 1))
    rw [Nat.ofDigitChars_ten_toDigits] at hnumber
    rw [Text.decimal, String.toList_append, Nat.repr, String.toList_ofList (l := Nat.toDigits _ _)]
    exact scanned_number (List.forall_mem_cons.2 ⟨by decide, hchar (m + 1)⟩)
      (hnumber (Nat.succ_pos m) h)

theorem scanned_word {s : String} {j : Json} (hs : s.toList = c :: cs)
    (h : ∀ rest, next? c (cs ++ rest) = some (some (.word j), rest)) :
    Scanned s.toList [.word j] := by
  intro rest us _ hus
  rw [hs]
  refine Scans.next (h rest) ?_ hus
  rw [List.length_append]
  omega

/-! ### Brackets -/

/-- What begins with a character of no number ends what stands before it. -/
theorem Scanned.append {a : List Char} (ha : Scanned a ts) (hb : Scanned (c :: b) us)
    (hc : isNumberChar c = false) : Scanned (a ++ c :: b) (ts ++ us) := by
  intro rest vs hrest hvs
  rw [List.append_assoc, List.append_assoc]
  refine ha _ _ ?_ (hb _ _ hrest hvs)
  rintro d ⟨⟩
  exact hc

theorem Scanned.mark (hc : IsMark c t) (hb : Scanned b us) : Scanned (c :: b) (t :: us) :=
  fun _ _ hrest hus => Scans.mark hc (hb _ _ hrest hus)

theorem scanned_nil : Scanned [] [] := fun _ _ _ h => h

theorem isMark_comma : IsMark ',' .comma := ⟨by decide, fun _ => rfl⟩

theorem isMark_colon : IsMark ':' .colon := ⟨by decide, fun _ => rfl⟩

theorem isBlank_of_mem_indentation {level : Nat} (h : c ∈ (indentation level).toList) :
    isBlank c = true := by
  rw [indentation, String.toList_ofList] at h
  rw [List.eq_of_mem_replicate h]
  rfl

/-- Items are separated by commas, each on a line of its own. -/
theorem scanned_items {item : String} (level : Nat)
    (h : List.Forall₂ (fun s ts => Scanned s.toList ts) (item :: items) (ts :: tss)) :
    Scanned (String.intercalate ",\n" ((item :: items).map (indentation level ++ ·))).toList
      (List.intercalate [.comma] (ts :: tss)) := by
  induction items generalizing item ts tss with
  | nil =>
    obtain ⟨hitem, hrest⟩ := List.forall₂_cons.1 h
    cases hrest
    rw [List.map_singleton, String.intercalate_singleton, String.toList_append,
      List.intercalate_singleton]
    exact hitem.blanks fun c => isBlank_of_mem_indentation
  | cons next items ih =>
    obtain ⟨hitem, hrest⟩ := List.forall₂_cons.1 h
    cases tss with
    | nil => cases hrest
    | cons us tss =>
      have hpad : Scanned (indentation level ++ item).toList ts := by
        rw [String.toList_append]
        exact hitem.blanks fun c => isBlank_of_mem_indentation
      have hnew : ∀ c ∈ ['\n'], isBlank c = true := List.forall_mem_singleton.2 rfl
      have hline := (ih hrest).blanks hnew
      rw [List.map_cons, List.map_cons, String.intercalate_cons_cons, ← List.map_cons,
        String.toList_append, String.toList_append, List.append_assoc, List.intercalate_cons_cons,
        List.append_assoc]
      exact hpad.append (.mark isMark_comma hline) (by decide)

/-- Brackets stand around the items. -/
theorem scanned_bracketed {left right : String} {d : Char} {u : Token} (level : Nat)
    (hleft : left.toList = [c]) (hright : right.toList = [d]) (ht : IsMark c t) (hu : IsMark d u)
    (h : List.Forall₂ (fun s ts => Scanned s.toList ts) items tss) :
    Scanned (bracketed level left right items).toList (t :: (List.intercalate [.comma] tss ++ [u])) := by
  cases h with
  | nil =>
    rw [bracketed, String.toList_append, hleft, hright]
    exact .mark ht (.mark hu scanned_nil)
  | cons hitem hrest =>
    have hnew : ∀ c ∈ ['\n'], isBlank c = true := List.forall_mem_singleton.2 rfl
    have hindent : ∀ c ∈ (indentation level).toList, isBlank c = true :=
      fun c => isBlank_of_mem_indentation
    have hclose := ((Scanned.mark hu scanned_nil).blanks hindent).blanks hnew
    have hopen := (scanned_items (level + 1) (.cons hitem hrest)).blanks hnew
    have hall := Scanned.mark ht (hopen.append hclose (by decide))
    simpa [bracketed, hleft, hright] using hall

end Token

/-! ## Values -/

mutual

/-- Values with integers of 64 bits only, all of whose strings can be read. -/
def IsPlain : Json → Prop
  | .int n => isWord n = true
  | .real _ | .unreadable => False
  | .arr elems => IsPlainList elems
  | .obj members => IsPlainMembers members
  | _ => True

def IsPlainList : List Json → Prop
  | [] => True
  | j :: rest => j.IsPlain ∧ IsPlainList rest

def IsPlainMembers : List (String × Json) → Prop
  | [] => True
  | (_, j) :: rest => j.IsPlain ∧ IsPlainMembers rest

end

mutual

/-- The tokens of a value. -/
def tokens : Json → List Token
  | .str s => [.text (some s)]
  | .arr elems => .openBracket :: (List.intercalate [.comma] (tokensList elems) ++ [.closeBracket])
  | .obj members => .openBrace :: (List.intercalate [.comma] (tokensMembers members) ++ [.closeBrace])
  | j => [.word j]

def tokensList : List Json → List (List Token)
  | [] => []
  | j :: rest => j.tokens :: tokensList rest

def tokensMembers : List (String × Json) → List (List Token)
  | [] => []
  | (name, j) :: rest => (.text (some name) :: .colon :: j.tokens) :: tokensMembers rest

end

open Token in
mutual

theorem scanned_prettyAt (level : Nat) :
    (j : Json) → j.IsPlain → Scanned (prettyAt level j).toList j.tokens
  | .null, _ => scanned_word (s := "null") rfl fun _ => rfl
  | .bool true, _ => scanned_word (s := "true") rfl fun _ => rfl
  | .bool false, _ => scanned_word (s := "false") rfl fun _ => rfl
  | .int _, h => scanned_decimal h
  | .str s, _ => scanned_quote s
  | .arr elems, h => scanned_bracketed level rfl rfl ⟨by decide, fun _ => rfl⟩ ⟨by decide, fun _ => rfl⟩
    (scanned_prettyList (level + 1) elems h)
  | .obj members, h => scanned_bracketed level rfl rfl ⟨by decide, fun _ => rfl⟩
    ⟨by decide, fun _ => rfl⟩ (scanned_prettyMembers (level + 1) members h)

theorem scanned_prettyList (level : Nat) : (js : List Json) → IsPlainList js →
    List.Forall₂ (fun s ts => Scanned s.toList ts) (prettyList level js) (tokensList js)
  | [], _ => .nil
  | j :: js, h => .cons (scanned_prettyAt level j h.1) (scanned_prettyList level js h.2)

theorem scanned_prettyMembers (level : Nat) : (ms : List (String × Json)) → IsPlainMembers ms →
    List.Forall₂ (fun s ts => Scanned s.toList ts) (prettyMembers level ms) (tokensMembers ms)
  | [], _ => .nil
  | (name, j) :: ms, h => by
    refine .cons ?_ (scanned_prettyMembers level ms h.2)
    have hspace : ∀ c ∈ [' '], isBlank c = true := List.forall_mem_singleton.2 rfl
    have hvalue := (scanned_prettyAt level j h.1).blanks hspace
    rw [String.toList_append, String.toList_append, List.append_assoc]
    exact (scanned_quote name).append (.mark isMark_colon hvalue) (by decide)

end

/-- No value begins like the end of an array. -/
theorem exists_tokens (j : Json) : ∃ t ts, j.tokens = t :: ts ∧ t ≠ .closeBracket := by
  cases j <;> exact ⟨_, _, rfl, nofun⟩

theorem ofMembers_map (ms : List (String × Json)) :
    ofMembers (ms.map fun m => (some m.1, m.2)) = .obj ms := by
  have hall : (ms.map fun m => (some m.1, m.2)).mapM
      (fun m : Option String × Json => m.1.map fun name => (name, m.2)) = some ms := by
    induction ms with
    | nil => rfl
    | cons m ms ih => simp [ih]
  rw [ofMembers, hall]

mutual

theorem valueWithin_tokens : (j : Json) → j.IsPlain → ∀ n rest, j.tokens.length ≤ n →
    valueWithin n (j.tokens ++ rest) = some (j, rest)
  | .null, _, n, _, _ | .bool _, _, n, _, _ | .int _, _, n, _, _ | .str _, _, n, _, _ => by
    cases n <;> rfl
  | .arr [], _, n + 1, _, _ => rfl
  | .arr (j :: js), h, n + 1, rest, hn => by
    have helems := elemsWithin_tokens (j :: js) (List.cons_ne_nil _ _) h n rest
      (by simp only [tokens, List.length_cons, List.length_append, List.length_nil] at hn; omega)
    obtain ⟨t, ts, ht, hclose⟩ := exists_tokens j
    have hhead : ∃ us, List.intercalate [.comma] (tokensList (j :: js)) = t :: us := by
      cases js <;> simp [tokensList, ht]
    obtain ⟨us, hus⟩ := hhead
    rw [hus] at helems
    rw [tokens, hus, List.cons_append, List.append_assoc, List.cons_append, valueWithin]
    · rw [List.cons_append] at helems
      simp [helems]
    · rintro _ ⟨⟩
      exact hclose rfl
  | .obj [], _, n + 1, _, _ => rfl
  | .obj ((name, j) :: ms), h, n + 1, rest, hn => by
    have hmembers := membersWithin_tokens ((name, j) :: ms) (List.cons_ne_nil _ _) h n rest
      (by simp only [tokens, List.length_cons, List.length_append, List.length_nil] at hn; omega)
    have hhead : ∃ us, List.intercalate [.comma] (tokensMembers ((name, j) :: ms)) =
        .text (some name) :: us := by
      cases ms <;> simp [tokensMembers]
    obtain ⟨us, hus⟩ := hhead
    rw [hus] at hmembers
    rw [tokens, hus, List.cons_append, List.append_assoc, List.cons_append, valueWithin]
    · rw [List.cons_append] at hmembers
      simp only [List.cons_append, List.nil_append, hmembers, Option.map_some, ofMembers_map]
    · rintro _ ⟨⟩

theorem elemsWithin_tokens : (js : List Json) → js ≠ [] → IsPlainList js → ∀ n rest,
    (List.intercalate [.comma] (tokensList js)).length < n →
    elemsWithin n (List.intercalate [.comma] (tokensList js) ++ .closeBracket :: rest) =
      some (js, rest)
  | [j], _, h, n + 1, rest, hn => by
    rw [tokensList, tokensList, List.intercalate_singleton] at hn ⊢
    rw [elemsWithin, valueWithin_tokens j h.1 n _ (by omega)]
    rfl
  | j :: k :: js, _, h, n + 1, rest, hn => by
    have hsplit : List.intercalate [.comma] (tokensList (j :: k :: js)) =
        j.tokens ++ .comma :: List.intercalate [.comma] (tokensList (k :: js)) := by
      rw [tokensList, tokensList, List.intercalate_cons_cons, List.append_assoc]
      rfl
    have hlen := congrArg List.length hsplit
    rw [List.length_append, List.length_cons] at hlen
    rw [hsplit, List.append_assoc, elemsWithin, valueWithin_tokens j h.1 n _ (by omega)]
    have helems := elemsWithin_tokens (k :: js) (List.cons_ne_nil _ _) h.2 n rest (by
      obtain ⟨t, ts, ht, -⟩ := exists_tokens j
      rw [ht, List.length_cons] at hlen
      omega)
    simp [helems]

theorem membersWithin_tokens : (ms : List (String × Json)) → ms ≠ [] → IsPlainMembers ms →
    ∀ n rest, (List.intercalate [.comma] (tokensMembers ms)).length < n →
    membersWithin n (List.intercalate [.comma] (tokensMembers ms) ++ .closeBrace :: rest) =
      some (ms.map fun m => (some m.1, m.2), rest)
  | [(name, j)], _, h, n + 1, rest, hn => by
    rw [tokensMembers, tokensMembers, List.intercalate_singleton] at hn ⊢
    rw [List.length_cons, List.length_cons] at hn
    rw [List.cons_append, List.cons_append, membersWithin,
      valueWithin_tokens j h.1 n _ (by omega)]
    rfl
  | (name, j) :: m :: ms, _, h, n + 1, rest, hn => by
    have hsplit : List.intercalate [.comma] (tokensMembers ((name, j) :: m :: ms)) =
        .text (some name) :: .colon ::
          (j.tokens ++ .comma :: List.intercalate [.comma] (tokensMembers (m :: ms))) := by
      rw [tokensMembers, tokensMembers, List.intercalate_cons_cons, List.append_assoc]
      rfl
    have hlen := congrArg List.length hsplit
    simp only [List.length_append, List.length_cons] at hlen
    rw [hsplit, List.cons_append, List.cons_append, List.append_assoc, membersWithin,
      valueWithin_tokens j h.1 n _ (by omega)]
    have hmembers := membersWithin_tokens (m :: ms) (List.cons_ne_nil _ _) h.2 n rest (by omega)
    simp [hmembers]

end

/-- A value is read from the text that is written for it. -/
theorem parse?_pretty {j : Json} (h : j.IsPlain) : parse? j.pretty = some j := by
  have htokens : Token.tokens? j.pretty = some j.tokens := by
    have hscanned := scanned_prettyAt 0 j h [] [] nofun Token.scans_nil
    rw [List.append_nil, List.append_nil] at hscanned
    exact hscanned _ (Nat.le_refl _)
  have hvalue := valueWithin_tokens j h (j.tokens.length + 1) [] (Nat.le_succ _)
  rw [List.append_nil] at hvalue
  simp [parse?, htokens, hvalue]

end Shroud.Json

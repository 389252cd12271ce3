import Lineage.Proofs.Json.Token

/-!
# JSON values survive their own text

A value that is written is read back as it was: its text is split into its tokens, whatever tokens
come after them, and its tokens are read as the value, whatever comes after them.  Both follow the
way in which a value is built.

## Main statements

- `Token.Lexes`: how a text is split into tokens, one token at a time;
- `Written.splits`, `Written.reads`: values in front of other tokens;
- `Written.parse?_render`: whole texts;
- `record?_ofFields`: a record gives back the fields that it was built from.
-/

namespace Lineage.Json

/-! ## §1 Splitting what was written -/

namespace Token

/-- The contents of a token are as they are written. -/
def Written : Token → Prop
  | number literal => ∃ n, literal = Nat.toDigits 10 n
  | text body => ∃ cs, body = Text.encode cs
  | _ => True

/-- What comes after a token does not belong to it: only a number would go on. -/
def Ends (t : Token) (rest : List Char) : Prop := ∀ literal, t = number literal → Apart rest

variable {t : Token} {rest : List Char} {ts : List Token}

theorem scan_chars (ht : t.Written) (hrest : t.Ends rest) :
    scan (t.chars ++ rest) = some (t, rest) := by
  cases t with
  | bool value => cases value <;> rfl
  | number literal =>
    obtain ⟨n, rfl⟩ := ht
    have hnumber := scanNumber_toDigits n (hrest _ rfl)
    have hdigit : ∀ c cs, Nat.toDigits 10 n ++ rest = c :: cs → c.isDigit = true := by
      intro c cs hcons
      obtain ⟨d, ds, hdigits, hdigit⟩ := toDigits_eq_cons n
      rw [hdigits, List.cons_append, List.cons.injEq] at hcons
      rw [← hcons.1]
      exact hdigit
    -- all other tokens start with a character that is no digit
    unfold chars scan
    split
    case h_11 => rw [hnumber]; rfl
    all_goals
      rename_i hfirst
      exact absurd (hdigit _ _ hfirst) (by decide)
  | text body =>
    obtain ⟨cs, rfl⟩ := ht
    -- the quote that closes a text is the first one that is not escaped
    have hchars : (text (Text.encode cs)).chars ++ rest =
        '"' :: (Text.encode cs ++ '"' :: rest) := by
      simp [chars]
    rw [hchars, scan, Text.scan_encode]
    rfl
  | _ => rfl

/-- A token starts with a character that is not passed over as a blank. -/
theorem dropWhile_chars (ht : t.Written) (rest : List Char) :
    (t.chars ++ rest).dropWhile isBlank = t.chars ++ rest ∧ 0 < t.chars.length := by
  cases t with
  | bool value => cases value <;> exact ⟨rfl, by decide⟩
  | number literal =>
    obtain ⟨n, rfl⟩ := ht
    obtain ⟨d, ds, hdigits, hdigit⟩ := toDigits_eq_cons n
    -- a digit is none of the four blanks
    have hblank : isBlank d = false := by
      simp only [isBlank, Bool.or_eq_false_iff, decide_eq_false_iff_not]
      refine ⟨⟨⟨?_, ?_⟩, ?_⟩, ?_⟩ <;>
        (rintro rfl; exact absurd hdigit (by decide))
    rw [chars, hdigits, List.cons_append, List.dropWhile_cons_of_neg (by simp [hblank])]
    exact ⟨rfl, Nat.succ_pos _⟩
  | text body => exact ⟨rfl, Nat.succ_pos _⟩
  | _ => exact ⟨rfl, Nat.succ_pos _⟩

/-- A text is split into these tokens. -/
structure Lexes (cs : List Char) (ts : List Token) : Prop where
  length_le : ts.length ≤ cs.length
  ofCharsFrom : ∀ fuel, ts.length ≤ fuel → ofCharsFrom fuel cs = some ts

theorem Lexes.nil : Lexes [] [] where
  length_le := Nat.le_refl 0
  ofCharsFrom fuel _ := by
    unfold Token.ofCharsFrom
    rfl

theorem Lexes.cons (ht : t.Written) (hrest : t.Ends rest) (h : Lexes rest ts) :
    Lexes (t.chars ++ rest) (t :: ts) := by
  obtain ⟨hblank, hpos⟩ := dropWhile_chars ht rest
  refine ⟨?_, fun fuel hfuel => ?_⟩
  · rw [List.length_cons, List.length_append]
    have := h.length_le
    omega
  · obtain ⟨fuel, rfl⟩ := Nat.exists_eq_add_one.2 (Nat.lt_of_lt_of_le ts.length.succ_pos hfuel)
    -- there is a character left to look at, and a call left to look at it
    have hne : t.chars ++ rest ≠ [] :=
      List.append_ne_nil_of_left_ne_nil (List.ne_nil_of_length_pos hpos) rest
    obtain ⟨c, cs, hcons⟩ := List.exists_cons_of_ne_nil hne
    have hscan := scan_chars ht hrest
    have hrest := h.ofCharsFrom fuel (Nat.le_of_succ_le_succ hfuel)
    rw [hcons] at hblank hscan ⊢
    unfold Token.ofCharsFrom
    rw [hblank]
    simp only [hscan, hrest, Option.bind_eq_bind, Option.bind_some, Option.pure_def]

theorem Lexes.ofChars? {cs : List Char} (h : Lexes cs ts) : ofChars? cs = some ts :=
  h.ofCharsFrom cs.length h.length_le

end Token

/-! ## §2 Values -/

/-- Number literals and string bodies are as they are written. -/
inductive Written : Json → Prop
  | null : Written .null
  | bool (value : Bool) : Written (.bool value)
  | number (n : Nat) : Written (.number (Nat.toDigits 10 n))
  | text (cs : List Char) : Written (.text (Text.encode cs))
  | array {items : List Json} : (∀ item ∈ items, Written item) → Written (.array items)
  | object {fields : List (List Char × Json)} :
      (∀ field ∈ fields, ∃ cs, field.1 = Text.encode cs) →
      (∀ field ∈ fields, Written field.2) → Written (.object fields)

variable {value : Json} {rest : List Char} {ts : List Token}

/-- A value that is written in front of other tokens is split into its own. -/
def Splits (value : Json) : Prop := ∀ rest ts, Apart rest → Token.Lexes rest ts →
  Token.Lexes (value.tokens.flatMap Token.chars ++ rest) (value.tokens ++ ts)

theorem apart_cons {c : Char} (hc : goesOn c = false) : Apart (c :: rest) := by
  rintro _ ⟨⟩
  exact hc

theorem ends_of_ne_number {t : Token} (h : ∀ literal, t ≠ .number literal) : t.Ends rest :=
  fun literal hnumber => absurd hnumber (h literal)

theorem lexes_itemTokens {items : List Json} (hitems : ∀ item ∈ items, item.Splits)
    (h : Token.Lexes rest ts) :
    Token.Lexes ((itemTokens items).flatMap Token.chars ++ rest) (itemTokens items ++ ts) := by
  have hclose : Token.Lexes (']' :: rest) (.closeBracket :: ts) :=
    h.cons (t := .closeBracket) trivial (ends_of_ne_number nofun)
  -- each item is followed by a comma or by the closing bracket, neither of which goes on a number
  induction items with
  | nil => exact hclose
  | cons item items ih =>
    have hitem := hitems item List.mem_cons_self
    cases items with
    | nil =>
      have hsplit := hitem _ _ (apart_cons (by decide)) hclose
      simpa [itemTokens, Token.chars] using hsplit
    | cons next items =>
      have hmore := (ih fun item hmem => hitems item (List.mem_cons_of_mem _ hmem)).cons
        (t := .comma) trivial (ends_of_ne_number nofun)
      have hsplit := hitem _ _ (apart_cons (by decide)) hmore
      simpa [itemTokens, Token.chars] using hsplit

theorem lexes_fieldTokens {fields : List (List Char × Json)}
    (hkeys : ∀ field ∈ fields, ∃ cs, field.1 = Text.encode cs)
    (hfields : ∀ field ∈ fields, field.2.Splits) (h : Token.Lexes rest ts) :
    Token.Lexes ((fieldTokens fields).flatMap Token.chars ++ rest) (fieldTokens fields ++ ts) := by
  have hclose : Token.Lexes ('}' :: rest) (.closeBrace :: ts) :=
    h.cons (t := .closeBrace) trivial (ends_of_ne_number nofun)
  -- as for items, with a key in front of each value
  induction fields with
  | nil => exact hclose
  | cons field fields ih =>
    obtain ⟨key, value⟩ := field
    have hkey := hkeys _ List.mem_cons_self
    have hvalue : value.Splits := hfields _ List.mem_cons_self
    -- the key and the colon stand in front of the value
    have hnamed {cs : List Char} {tokens : List Token} (hlex : Token.Lexes cs tokens) :=
      (hlex.cons (t := .colon) trivial (ends_of_ne_number nofun)).cons (t := .text key) hkey
        (ends_of_ne_number nofun)
    cases fields with
    | nil =>
      have hsplit := hnamed (hvalue _ _ (apart_cons (by decide)) hclose)
      simpa [fieldTokens, Token.chars] using hsplit
    | cons next fields =>
      have hmore := (ih (fun field hmem => hkeys field (List.mem_cons_of_mem _ hmem))
        fun field hmem => hfields field (List.mem_cons_of_mem _ hmem)).cons
        (t := .comma) trivial (ends_of_ne_number nofun)
      have hsplit := hnamed (hvalue _ _ (apart_cons (by decide)) hmore)
      simpa [fieldTokens, Token.chars] using hsplit

theorem Written.splits (h : Written value) : value.Splits := by
  -- only a number minds what comes after it
  induction h with
  | null =>
    intro rest ts _ hlex
    exact hlex.cons (t := .null) trivial (ends_of_ne_number nofun)
  | bool value =>
    intro rest ts _ hlex
    have hsplit := hlex.cons (t := .bool value) trivial (ends_of_ne_number nofun)
    simpa [tokens] using hsplit
  | number n =>
    intro rest ts hrest hlex
    have hsplit := hlex.cons (t := .number (Nat.toDigits 10 n)) ⟨n, rfl⟩ fun _ _ => hrest
    simpa [tokens] using hsplit
  | text cs =>
    intro rest ts _ hlex
    have hsplit := hlex.cons (t := .text (Text.encode cs)) ⟨cs, rfl⟩ (ends_of_ne_number nofun)
    simpa [tokens] using hsplit
  -- the brackets are tokens of their own around those of the items
  | array _ ih =>
    intro rest ts _ hlex
    have hsplit := (lexes_itemTokens ih hlex).cons (t := .openBracket) trivial
      (ends_of_ne_number nofun)
    simpa [tokens] using hsplit
  | object hkeys _ ih =>
    intro rest ts _ hlex
    have hsplit := (lexes_fieldTokens hkeys ih hlex).cons (t := .openBrace) trivial
      (ends_of_ne_number nofun)
    simpa [tokens] using hsplit

/-! ## §3 Reading values -/

/-- A value is read from its tokens with two calls for each of them. -/
def Reads (value : Json) : Prop := ∀ fuel rest, 2 * value.tokens.length ≤ fuel →
  ofTokens fuel (value.tokens ++ rest) = some (value, rest)

variable {more : List Token} {fuel : Nat}

/-- No item starts with the mark that ends an array. -/
theorem itemTokens_ne_closeBracket (item : Json) (items : List Json) (ts : List Token) :
    itemTokens (item :: items) ++ more ≠ .closeBracket :: ts := by
  cases item <;> cases items <;> simp [itemTokens, tokens]

theorem itemsOfTokens_itemTokens {items : List Json} (hitems : ∀ item ∈ items, item.Reads)
    (hne : items ≠ []) (hfuel : 2 * (itemTokens items).length ≤ fuel) :
    itemsOfTokens fuel (itemTokens items ++ more) = some (items, more) := by
  induction items generalizing fuel with
  | nil => exact absurd rfl hne
  | cons item items ih =>
    have hitem := hitems item List.mem_cons_self
    -- the token behind an item tells whether there is a further one
    cases items with
    | nil =>
      simp only [itemTokens, List.length_append, List.length_singleton] at hfuel
      obtain ⟨fuel, rfl⟩ := Nat.exists_eq_add_one.2 (show 0 < fuel by omega)
      have hread := hitem fuel (.closeBracket :: more) (by omega)
      simp [itemTokens, itemsOfTokens, hread]
    | cons next items =>
      simp only [itemTokens, List.length_append, List.length_cons] at hfuel
      obtain ⟨fuel, rfl⟩ := Nat.exists_eq_add_one.2 (show 0 < fuel by omega)
      have hread := hitem fuel (.comma :: (itemTokens (next :: items) ++ more)) (by omega)
      have hmore : itemsOfTokens fuel (itemTokens (next :: items) ++ more) =
          some (next :: items, more) :=
        ih (fun item hmem => hitems item (List.mem_cons_of_mem _ hmem)) nofun (by omega)
      simp [itemTokens, itemsOfTokens, hread, hmore]

theorem fieldsOfTokens_fieldTokens {fields : List (List Char × Json)}
    (hfields : ∀ field ∈ fields, field.2.Reads) (hne : fields ≠ [])
    (hfuel : 2 * (fieldTokens fields).length ≤ fuel) :
    fieldsOfTokens fuel (fieldTokens fields ++ more) = some (fields, more) := by
  induction fields generalizing fuel with
  | nil => exact absurd rfl hne
  | cons field fields ih =>
    obtain ⟨key, value⟩ := field
    have hvalue : value.Reads := hfields _ List.mem_cons_self
    -- the key and the colon take one call, and the token behind the value decides as before
    cases fields with
    | nil =>
      simp only [fieldTokens, List.length_append, List.length_cons, List.length_nil] at hfuel
      obtain ⟨fuel, rfl⟩ := Nat.exists_eq_add_one.2 (show 0 < fuel by omega)
      have hread := hvalue fuel (.closeBrace :: more) (by omega)
      simp [fieldTokens, fieldsOfTokens, hread]
    | cons next fields =>
      simp only [fieldTokens, List.length_append, List.length_cons] at hfuel
      obtain ⟨fuel, rfl⟩ := Nat.exists_eq_add_one.2 (show 0 < fuel by omega)
      have hread := hvalue fuel (.comma :: (fieldTokens (next :: fields) ++ more)) (by omega)
      have hmore : fieldsOfTokens fuel (fieldTokens (next :: fields) ++ more) =
          some (next :: fields, more) :=
        ih (fun field hmem => hfields field (List.mem_cons_of_mem _ hmem)) nofun (by omega)
      simp [fieldTokens, fieldsOfTokens, hread, hmore]

theorem Written.reads (h : Written value) : value.Reads := by
  -- one call for the value itself, the others for its items
  induction h with
  | array _ ih =>
    rename_i items _
    intro fuel more hfuel
    simp only [tokens, List.length_cons] at hfuel
    obtain ⟨fuel, rfl⟩ := Nat.exists_eq_add_one.2 (show 0 < fuel by omega)
    -- an empty array is told by the bracket that closes it at once
    cases items with
    | nil => rfl
    | cons item items =>
      have hread : itemsOfTokens fuel (itemTokens (item :: items) ++ more) =
          some (item :: items, more) :=
        itemsOfTokens_itemTokens ih nofun (by omega)
      change ofTokens (fuel + 1) (.openBracket :: (itemTokens (item :: items) ++ more)) = _
      rw [ofTokens, hread]
      · rfl
      · exact itemTokens_ne_closeBracket item items
  | object _ _ ih =>
    rename_i fields _ _
    intro fuel more hfuel
    simp only [tokens, List.length_cons] at hfuel
    obtain ⟨fuel, rfl⟩ := Nat.exists_eq_add_one.2 (show 0 < fuel by omega)
    cases fields with
    | nil => rfl
    | cons field fields =>
      have hread : fieldsOfTokens fuel (fieldTokens (field :: fields) ++ more) =
          some (field :: fields, more) :=
        fieldsOfTokens_fieldTokens ih nofun (by omega)
      change ofTokens (fuel + 1) (.openBrace :: (fieldTokens (field :: fields) ++ more)) = _
      rw [ofTokens, hread]
      · rfl
      · intro ts hclose
        cases fields <;> cases hclose
  | _ =>
    intro fuel more hfuel
    simp only [tokens, List.length_singleton] at hfuel
    obtain ⟨fuel, rfl⟩ := Nat.exists_eq_add_one.2 (show 0 < fuel by omega)
    rfl

/-- What was written is read back. -/
theorem Written.parse?_render (h : Written value) : parse? value.render = some value := by
  have hsplit := h.splits [] [] nofun Token.Lexes.nil
  have hread := h.reads (2 * value.tokens.length + 1) [] (Nat.le_succ _)
  rw [List.append_nil] at hread
  rw [List.append_nil, List.append_nil] at hsplit
  unfold parse? render
  rw [String.toList_ofList, hsplit.ofChars?]
  simp [hread]

theorem Written.parse?_render_bind {α : Type} (h : Written value) (read : Json → Option α) :
    (parse? value.render >>= read) = read value := by
  rw [h.parse?_render]
  rfl

/-! ## §4 What was built -/

theorem written_ofNat (n : Nat) : (ofNat n).Written := .number n

theorem written_ofText (s : String) : (ofText s).Written := .text s.toList

theorem written_ofFields {fields : List (String × Json)}
    (hfields : ∀ field ∈ fields, field.2.Written) : (ofFields fields).Written := by
  -- keys are written as texts, whatever they are
  apply Written.object
  · intro field hmem
    obtain ⟨named, -, rfl⟩ := List.mem_map.1 hmem
    exact ⟨named.1.toList, rfl⟩
  · intro field hmem
    obtain ⟨named, hnamed, rfl⟩ := List.mem_map.1 hmem
    exact hfields named hnamed

@[simp] theorem nat?_ofNat (n : Nat) : (ofNat n).nat? = some n := plainNat?_toDigits n

@[simp] theorem text?_ofText (s : String) : (ofText s).text? = some s := by
  simp [ofText, text?, Text.decode_encode]

@[simp] theorem variant?_ofText (s : String) : (ofText s).variant? = some s := by
  simp [ofText, variant?, Text.decode_encode]

theorem mapM_eq_some {α β : Type} {f : α → Option β} {g : α → β} {xs : List α}
    (h : ∀ x ∈ xs, f x = some (g x)) : xs.mapM f = some (xs.map g) := by
  -- no step fails, so nothing is cut off
  induction xs with
  | nil => rfl
  | cons x xs ih =>
    rw [List.mapM_cons, h x List.mem_cons_self, ih fun y hy => h y (List.mem_cons_of_mem x hy)]
    rfl

/-- Names that stand once pick out their own fields. -/
theorem filter_name_eq {fields : List (String × Json)} (hnodup : (fields.map Prod.fst).Nodup)
    {field : String × Json} (hmem : field ∈ fields) :
    (fields.filter fun other => other.1 = field.1) = [field] := by
  induction fields with
  | nil => cases hmem
  | cons first fields ih =>
    obtain ⟨hfresh, hnodup⟩ := List.nodup_cons.1 hnodup
    -- either the first field has the name, and no later one does, or it is passed over
    rcases List.mem_cons.1 hmem with rfl | hmem
    · have hnone : (fields.filter fun other => other.1 = field.1) = [] := by
        rw [List.filter_eq_nil_iff]
        intro other hother hname
        apply hfresh
        rw [← of_decide_eq_true hname]
        exact List.mem_map_of_mem hother
      rw [List.filter_cons_of_pos (by simp), hnone]
    · have hne : first.1 ≠ field.1 := by
        intro hname
        apply hfresh
        rw [hname]
        exact List.mem_map_of_mem hmem
      rw [List.filter_cons_of_neg (by simp [hne]), ih hnodup hmem]

/-- A record that was built gives all its fields back. -/
theorem record?_ofFields {names : List String} {values : List Json} (hnames : names.Nodup)
    (hlength : names.length = values.length) :
    (ofFields (names.zip values)).record? names = some (values.map some) := by
  have hfst : (names.zip values).map Prod.fst = names :=
    List.map_fst_zip (Nat.le_of_eq hlength)
  have hsnd : (names.zip values).map Prod.snd = values :=
    List.map_snd_zip (Nat.le_of_eq hlength.symm)
  generalize names.zip values = fields at hfst hsnd
  subst hfst hsnd
  -- every key is read back as the name that it was written for
  rw [ofFields, record?, List.mapM_map, mapM_eq_some (g := id), List.map_id, Option.bind_eq_bind,
    Option.bind_some]
  · rw [List.mapM_map, mapM_eq_some (g := fun field => some field.2), List.map_map]
    · rfl
    · intro field hmem
      simp only [Function.comp_apply, filter_name_eq hnames hmem]
  · intro field _
    simp [Text.decode_encode]

end Lineage.Json

import Durability.Json.Parser
import Durability.Json.Printer
import Mathlib.Data.List.TakeWhile

namespace Durability.Json

/-- No number in it has a fraction or an exponent. -/
inductive Whole : Json → Prop
  | null : Whole null
  | bool (b : Bool) : Whole (bool b)
  | int (n : Int) : Whole (int n)
  | str (s : String) : Whole (str s)
  | unpaired : Whole unpaired
  | arr {items : List Json} (h : ∀ j ∈ items, Whole j) : Whole (arr items)
  | obj {members : List (String × Json)} (h : ∀ m ∈ members, Whole m.2) : Whole (obj members)

mutual

def tokens : Json → List Token
  | arr (j :: js) => .openBracket :: (tokens j ++ itemTokens js ++ [.closeBracket])
  | arr [] => [.openBracket, .closeBracket]
  | obj ((k, j) :: ms) =>
    .openBrace :: .str k :: .colon :: (tokens j ++ memberTokens ms ++ [.closeBrace])
  | obj [] => [.openBrace, .closeBrace]
  | str s => [.str s]
  | unpaired => [.unpaired]
  | j => [.bare j]

def itemTokens : List Json → List Token
  | [] => []
  | j :: js => .comma :: (tokens j ++ itemTokens js)

def memberTokens : List (String × Json) → List Token
  | [] => []
  | (k, j) :: ms => .comma :: .str k :: .colon :: (tokens j ++ memberTokens ms)

end

namespace Lexer

def Clear (x : Lexer) (ts : List Token) : Prop := x = ⟨.between, ts⟩

/-- Up to a word that is still open, the tokens so far are `ts`, last first. -/
def Pending (x : Lexer) (ts : List Token) : Prop := x.flush = some ⟨.between, ts⟩

theorem Clear.pending {x : Lexer} {ts : List Token} (h : x.Clear ts) : x.Pending ts := by
  rw [h]
  rfl

theorem Pending.step {x : Lexer} {ts : List Token} (h : x.Pending ts) (c : Char) :
    x.step c = x.outside c := by
  obtain ⟨mode, tokens⟩ := x
  cases mode with
  | between => rfl
  | word cs => rfl
  | string units => simp [Pending, flush] at h
  | escape units => simp [Pending, flush] at h
  | unicode units count value => simp [Pending, flush] at h

end Lexer

/-- From `P`, the text `cs` adds the tokens `ts` and leaves `Q`. A word is complete only when something
follows it, so stretches of text are put together with `Reads.append`. -/
def Reads (P Q : Lexer → List Token → Prop) (cs : List Char) (ts : List Token) : Prop :=
  ∀ x before, P x before →
    ∃ y, cs.foldlM Lexer.step x = some y ∧ Q y (ts.reverse ++ before)

namespace Reads

open Lexer

variable {P Q R : Lexer → List Token → Prop} {cs ds : List Char} {ts us : List Token}

theorem append (h : Reads P Q cs ts) (h' : Reads Q R ds us) : Reads P R (cs ++ ds) (ts ++ us) := by
  intro x before hx
  obtain ⟨y, hy, hq⟩ := h x before hx
  obtain ⟨z, hz, hr⟩ := h' y _ hq
  refine ⟨z, ?_, ?_⟩
  · rw [List.foldlM_append, hy]
    exact hz
  · rw [List.reverse_append, List.append_assoc]
    exact hr

theorem nil : Reads P P [] [] := fun x _ hx ↦ ⟨x, rfl, hx⟩

theorem pending (h : Reads P Clear cs ts) : Reads P Pending cs ts := by
  intro x before hx
  obtain ⟨y, hy, hq⟩ := h x before hx
  exact ⟨y, hy, hq.pending⟩

theorem ofClear (h : Reads Pending Q cs ts) : Reads Clear Q cs ts :=
  fun x before hx ↦ h x before hx.pending

theorem single {c : Char}
    (h : ∀ x before, P x before → ∃ y, x.step c = some y ∧ Q y (ts.reverse ++ before)) :
    Reads P Q [c] ts := by
  intro x before hx
  obtain ⟨y, hy, hq⟩ := h x before hx
  refine ⟨y, ?_, hq⟩
  simp only [List.foldlM_cons, List.foldlM_nil, hy, Option.bind_eq_bind, Option.bind_some, Option.pure_def]

theorem blank {c : Char} (hc : isBlank c = true) : Reads Pending Clear [c] [] := by
  refine single fun x before hx ↦ ⟨⟨.between, before⟩, ?_, rfl⟩
  rw [hx.step, outside, if_pos hc]
  exact hx

theorem blanks {cs : List Char} (h : ∀ c ∈ cs, isBlank c = true) : Reads Clear Clear cs [] := by
  induction cs with
  | nil => exact nil
  | cons c cs ih =>
    have hc : Reads Clear Clear [c] [] := (blank (h c (List.mem_cons_self ..))).ofClear
    exact hc.append (ih fun d hd ↦ h d (List.mem_cons_of_mem c hd))

theorem mark {c : Char} {t : Token} (hb : isBlank c = false) (h : mark? c = some t) :
    Reads Pending Clear [c] [t] := by
  refine single fun x before hx ↦ ⟨⟨.between, t :: before⟩, ?_, rfl⟩
  have hx' : x.flush = some ⟨.between, before⟩ := hx
  simp only [hx.step, outside, hb, h, hx', Bool.false_eq_true, if_false, Option.map_some]

theorem margin (depth : Nat) : Reads Pending Clear (Json.margin depth).toList [] := by
  have h : (Json.margin depth).toList = ['\n'] ++ List.replicate (2 * depth) ' ' := by
    simp [Json.margin]
  rw [h]
  refine (blank rfl).append (blanks ?_)
  intro c hc
  rw [List.eq_of_mem_replicate hc]
  rfl

end Reads

def isPlain (c : Char) : Bool := !Lexer.isBlank c && (Lexer.mark? c).isNone && c != '"'

theorem Lexer.outside_of_isPlain {c : Char} (h : isPlain c = true) (x : Lexer) :
    x.outside c = match x.mode with
      | .word cs => some { x with mode := .word (c :: cs) }
      | _ => some { x with mode := .word [c] } := by
  simp only [isPlain, Bool.and_eq_true, Bool.not_eq_true', Option.isNone_iff_eq_none, bne_iff_ne] at h
  obtain ⟨⟨hb, hm⟩, hq⟩ := h
  rw [outside, hb, hm]
  exact if_neg hq

theorem Lexer.foldlM_word {cs : List Char} (h : ∀ c ∈ cs, isPlain c = true) (ds : List Char)
    (ts : List Token) :
    cs.foldlM Lexer.step ⟨.word ds, ts⟩ = some ⟨.word (cs.reverse ++ ds), ts⟩ := by
  induction cs generalizing ds with
  | nil => rfl
  | cons c cs ih =>
    have hc := outside_of_isPlain (h c (List.mem_cons_self ..)) ⟨.word ds, ts⟩
    have hs : Lexer.step ⟨.word ds, ts⟩ c = some ⟨.word (c :: ds), ts⟩ := hc
    rw [List.foldlM_cons, hs, Option.bind_eq_bind, Option.bind_some,
      ih (fun d hd ↦ h d (List.mem_cons_of_mem c hd)), List.reverse_cons, List.append_assoc]
    rfl

theorem Reads.word {cs : List Char} {j : Json} (h : ∀ c ∈ cs, isPlain c = true)
    (hj : bare? cs = some j) : Reads Lexer.Clear Lexer.Pending cs [.bare j] := by
  intro x before hx
  rw [hx]
  cases cs with
  | nil => cases hj
  | cons c cs =>
    have hc := Lexer.outside_of_isPlain (h c (List.mem_cons_self ..)) ⟨.between, before⟩
    have hs : Lexer.step ⟨.between, before⟩ c = some ⟨.word [c], before⟩ := hc
    refine ⟨⟨.word (cs.reverse ++ [c]), before⟩, ?_, ?_⟩
    · rw [List.foldlM_cons, hs, Option.bind_eq_bind, Option.bind_some,
        Lexer.foldlM_word fun d hd ↦ h d (List.mem_cons_of_mem c hd)]
    · have hr : (cs.reverse ++ [c]).reverse = c :: cs := by simp
      simp only [Lexer.Pending, Lexer.flush, hr, hj, Option.map_some, List.reverse_singleton,
        List.singleton_append]

theorem isPlain_of_isDigit {c : Char} (h : c.isDigit = true) : isPlain c = true := by
  have h' : 48 ≤ c.toNat ∧ c.toNat ≤ 57 := by
    simpa [Char.isDigit, UInt32.le_iff_toNat_le] using h
  have hne : ∀ d : Char, d.toNat < 48 ∨ 57 < d.toNat → c ≠ d := by
    intro d hd heq
    rw [heq] at h'
    omega
  have hm : Lexer.mark? c = none := by
    unfold Lexer.mark?
    split
    all_goals first | rfl | exact absurd rfl (hne _ (by decide))
  have hq := hne '"' (by decide)
  have h1 := hne ' ' (by decide)
  have h2 := hne '\t' (by decide)
  have h3 := hne '\n' (by decide)
  have h4 := hne '\r' (by decide)
  simp [isPlain, Lexer.isBlank, hm, hq, h1, h2, h3, h4]

theorem digits_toDigits (n : Nat) : digits (Nat.toDigits 10 n) = n := by
  have h := Nat.ofDigitChars_ten_toDigits (n := n)
  rw [Nat.ofDigitChars_eq_foldl] at h
  exact h

theorem head?_toDigits_ne (n : Nat) (h : 10 ≤ n) : (Nat.toDigits 10 n).head? ≠ some '0' := by
  induction n using Nat.strongRecOn with
  | ind n ih =>
    obtain ⟨c, cs, hcs⟩ := List.exists_cons_of_ne_nil (Nat.toDigits_ne_nil (n := n / 10) (b := 10))
    have hhead : (Nat.toDigits 10 n).head? = (Nat.toDigits 10 (n / 10)).head? := by
      rw [Nat.toDigits_of_base_le (by decide) h, hcs]
      rfl
    rw [hhead]
    by_cases hn : n / 10 < 10
    · rw [Nat.toDigits_of_lt_base hn]
      intro h0
      have h0 := Nat.digitChar_eq_zero.mp (Option.some.inj h0)
      omega
    · exact ih (n / 10) (by omega) (by omega)

section Digits

variable (n : Nat)

theorem isDigit_toDigits : ∀ c ∈ Nat.toDigits 10 n, c.isDigit = true :=
  fun _ hc ↦ Nat.isDigit_of_mem_toDigits (by decide) (by decide) hc

theorem takeWhile_toDigits : (Nat.toDigits 10 n).takeWhile Char.isDigit = Nat.toDigits 10 n :=
  List.takeWhile_eq_self_iff.mpr (isDigit_toDigits n)

theorem dropWhile_toDigits : (Nat.toDigits 10 n).dropWhile Char.isDigit = [] :=
  List.dropWhile_eq_nil_iff.mpr (isDigit_toDigits n)

theorem head?_toDigits_ne_minus : (Nat.toDigits 10 n).head? ≠ some '-' := by
  intro h
  exact absurd (isDigit_toDigits n '-' (List.mem_of_mem_head? h)) (by decide)

theorem not_leadingZero :
    ¬ ((Nat.toDigits 10 n).head? = some '0' ∧ 1 < (Nat.toDigits 10 n).length) := by
  intro ⟨h0, hl⟩
  by_cases hn : n < 10
  · rw [Nat.toDigits_of_lt_base hn] at hl
    exact Nat.lt_irrefl 1 hl
  · exact head?_toDigits_ne n (by omega) h0

theorem number?_toDigits : number? (Nat.toDigits 10 n) = some (.int n) := by
  have hm := head?_toDigits_ne_minus n
  have hz := not_leadingZero n
  have hne : Nat.toDigits 10 n ≠ [] := Nat.toDigits_ne_nil
  unfold number?
  split
  · next heq =>
    rw [heq] at hm
    exact absurd rfl hm
  · simp only [takeWhile_toDigits, dropWhile_toDigits, digits_toDigits, hne, hz, hm, isTail, isExponent,
      Bool.not_true, Bool.false_eq_true, or_false, false_and, ne_eq, not_true_eq_false, if_false]

theorem number?_minus (hn : n ≠ 0) : number? ('-' :: Nat.toDigits 10 n) = some (.int (-n)) := by
  have hz := not_leadingZero n
  have hne : Nat.toDigits 10 n ≠ [] := Nat.toDigits_ne_nil
  simp only [number?, takeWhile_toDigits, dropWhile_toDigits, digits_toDigits, hne, hz, hn, isTail,
    isExponent, List.head?_cons, Bool.not_true, Bool.false_eq_true, or_false, and_false, ne_eq,
    not_true_eq_false, if_false, if_true]

end Digits

theorem bare?_of_number? {cs : List Char} {j : Json} {c : Char} (hc : cs.head? = some c)
    (hd : c = '-' ∨ c.isDigit = true) (h : number? cs = some j) : bare? cs = some j := by
  have hne : ∀ s : String, s.toList.head?.any (fun d ↦ d = '-' || d.isDigit) = false →
      cs ≠ s.toList := by
    intro s hs heq
    rw [← heq, hc] at hs
    cases hd with
    | inl hd => simp [hd] at hs
    | inr hd => simp [hd] at hs
  have hn := hne "null" (by decide)
  have ht := hne "true" (by decide)
  have hf := hne "false" (by decide)
  simp only [bare?, hn, ht, hf, if_false, h]

theorem Reads.int (n : Int) :
    Reads Lexer.Clear Lexer.Pending (toString n).toList [.bare (.int n)] := by
  cases n with
  | ofNat n =>
    have hs : (toString (Int.ofNat n)).toList = Nat.toDigits 10 n := Nat.toList_repr
    rw [hs]
    refine word (fun c hc ↦ isPlain_of_isDigit (isDigit_toDigits n c hc)) ?_
    obtain ⟨c, cs, hcs⟩ := List.exists_cons_of_ne_nil (Nat.toDigits_ne_nil (n := n) (b := 10))
    have hc := isDigit_toDigits n c (hcs ▸ List.mem_cons_self ..)
    exact bare?_of_number? (hcs ▸ rfl) (.inr hc) (number?_toDigits n)
  | negSucc n =>
    have hs : (toString (Int.negSucc n)).toList = '-' :: Nat.toDigits 10 (n + 1) := by
      have h : toString (Int.negSucc n) = "-" ++ (n + 1).repr := rfl
      rw [h, String.toList_append, Nat.toList_repr]
      rfl
    rw [hs]
    refine word ?_ (bare?_of_number? rfl (.inl rfl) (number?_minus (n + 1) (Nat.succ_ne_zero n)))
    intro c hc
    cases hc with
    | head => rfl
    | tail _ hc => exact isPlain_of_isDigit (isDigit_toDigits (n + 1) c hc)

theorem hexDigit?_digitChar {k : Nat} (hk : k < 16) : hexDigit? k.digitChar = some k := by
  revert k
  decide

theorem joinUnits_toNat (cs : List Char) : joinUnits (cs.map Char.toNat) = some cs := by
  induction cs with
  | nil => rfl
  | cons c cs ih =>
    have hc : c.toNat < 0xD800 ∨ 0xE000 ≤ c.toNat := by
      have h : c.toNat.isValidChar := c.valid
      unfold Nat.isValidChar at h
      omega
    rw [List.map_cons, joinUnits.eq_def]
    simp only [hc, if_true, ih, Option.map_some, Char.ofNat_toNat]

theorem stringToken_toNat (s : String) : Lexer.stringToken (s.toList.map Char.toNat) = .str s := by
  rw [Lexer.stringToken, joinUnits_toNat]
  simp only [String.ofList_toList]

theorem foldlM_hexByte {n : Nat} (hn : n < 0x20) (units : List Nat) (ts : List Token) :
    ('\\' :: 'u' :: '0' :: '0' :: hexByte n).foldlM Lexer.step ⟨.string units, ts⟩
      = some ⟨.string (n :: units), ts⟩ := by
  have h1 : hexDigit? (n / 16).digitChar = some (n / 16) := hexDigit?_digitChar (by omega)
  have h2 : hexDigit? (n % 16).digitChar = some (n % 16) := hexDigit?_digitChar (by omega)
  have h0 : hexDigit? '0' = some 0 := rfl
  have hv : 16 * (n / 16) + n % 16 = n := Nat.div_add_mod n 16
  have hb : '\\' ≠ '"' := by decide
  simp only [hexByte, List.foldlM_cons, List.foldlM_nil, Lexer.step, hb, h0, h1, h2, if_false, if_true,
    Option.map_some, Option.bind_eq_bind, Option.bind_some, Option.pure_def]
  simp [hv]

theorem foldlM_escape (c : Char) (units : List Nat) (ts : List Token) :
    (escape c).foldlM Lexer.step ⟨.string units, ts⟩ = some ⟨.string (c.toNat :: units), ts⟩ := by
  unfold escape
  split
  · rfl
  · rfl
  · rfl
  · rfl
  · rfl
  · next hquote hslash _ _ _ =>
    split
    · next h => rw [h]; rfl
    · split
      · next h => rw [h]; rfl
      · split
        · next h => exact foldlM_hexByte h units ts
        · next h =>
          have hq : c ≠ '"' := hquote
          have hs : c ≠ '\\' := hslash
          simp only [List.foldlM_cons, List.foldlM_nil, Lexer.step, hq, hs, h, if_false,
            Option.bind_eq_bind, Option.bind_some, Option.pure_def]

theorem foldlM_escapes (cs : List Char) (units : List Nat) (ts : List Token) :
    (cs.flatMap escape).foldlM Lexer.step ⟨.string units, ts⟩
      = some ⟨.string ((cs.map Char.toNat).reverse ++ units), ts⟩ := by
  induction cs generalizing units with
  | nil => rfl
  | cons c cs ih =>
    rw [List.flatMap_cons, List.foldlM_append, foldlM_escape, Option.bind_eq_bind, Option.bind_some, ih,
      List.map_cons, List.reverse_cons, List.append_assoc]
    rfl

theorem Reads.literal {body : List Char} {units : List Nat}
    (h : ∀ ts, body.foldlM Lexer.step ⟨.string [], ts⟩ = some ⟨.string units.reverse, ts⟩) :
    Reads Lexer.Pending Lexer.Clear ('"' :: (body ++ ['"'])) [Lexer.stringToken units] := by
  intro x before hx
  refine ⟨⟨.between, Lexer.stringToken units :: before⟩, ?_, rfl⟩
  have ho : x.step '"' = some ⟨.string [], before⟩ := by
    have hx' : x.flush = some ⟨.between, before⟩ := hx
    have hm : Lexer.mark? '"' = none := rfl
    have hb : Lexer.isBlank '"' = false := rfl
    simp only [hx.step, Lexer.outside, hm, hb, hx', Bool.false_eq_true, if_false, if_true, Option.map_some]
  rw [List.foldlM_cons, ho, Option.bind_eq_bind, Option.bind_some, List.foldlM_append, h,
    Option.bind_eq_bind, Option.bind_some]
  simp only [List.foldlM_cons, List.foldlM_nil, Lexer.step, if_true, List.reverse_reverse,
    Option.bind_eq_bind, Option.bind_some, Option.pure_def]

theorem Reads.quote (s : String) :
    Reads Lexer.Pending Lexer.Clear (Json.quote s).toList [.str s] := by
  have hq : (Json.quote s).toList = '"' :: (s.toList.flatMap escape ++ ['"']) := by
    simp [Json.quote]
  rw [hq, ← stringToken_toNat]
  refine literal fun ts ↦ ?_
  rw [foldlM_escapes, List.append_nil]

theorem Reads.unpaired : Reads Lexer.Pending Lexer.Clear (leaf .unpaired).toList [.unpaired] := by
  have hl : (leaf .unpaired).toList = '"' :: (['\\', 'u', 'd', '8', '0', '0'] ++ ['"']) := by
    simp [leaf]
  have ht : Lexer.stringToken [0xd800] = .unpaired := rfl
  rw [hl, ← ht]
  exact literal fun _ ↦ rfl

namespace Reads

open Lexer

theorem items {js : List Json}
    (h : ∀ j ∈ js, ∀ depth, Reads Clear Pending (pretty depth j).toList (tokens j)) (depth : Nat) :
    Reads Pending Pending (prettyItems depth js).toList (itemTokens js) := by
  induction js with
  | nil => exact nil
  | cons j js ih =>
    have hcomma : Reads Pending Clear [','] [.comma] := mark rfl rfl
    have hj := h j (List.mem_cons_self ..) depth
    have hjs := ih fun k hk ↦ h k (List.mem_cons_of_mem j hk)
    have hall := hcomma.append ((margin depth).ofClear.append (hj.append hjs))
    simpa [prettyItems, itemTokens] using hall

theorem member (depth : Nat) (k : String) {j : Json}
    (h : Reads Clear Pending (pretty depth j).toList (tokens j)) :
    Reads Clear Pending ((Json.quote k).toList ++ [':', ' '] ++ (pretty depth j).toList)
      (.str k :: .colon :: tokens j) := by
  have hcolon : Reads Pending Clear [':'] [.colon] := mark rfl rfl
  have hblank : Reads Clear Clear [' '] [] := (blank rfl).ofClear
  have hall := (quote k).ofClear.append (hcolon.ofClear.append (hblank.append h))
  simpa using hall

theorem members {ms : List (String × Json)}
    (h : ∀ m ∈ ms, ∀ depth, Reads Clear Pending (pretty depth m.2).toList (tokens m.2)) (depth : Nat) :
    Reads Pending Pending (prettyMembers depth ms).toList (memberTokens ms) := by
  induction ms with
  | nil => exact nil
  | cons m ms ih =>
    obtain ⟨k, j⟩ := m
    have hcomma : Reads Pending Clear [','] [.comma] := mark rfl rfl
    have hj := member depth k (h (k, j) (List.mem_cons_self ..) depth)
    have hms := ih fun n hn ↦ h n (List.mem_cons_of_mem (k, j) hn)
    have hall := hcomma.append ((margin depth).ofClear.append (hj.append hms))
    simpa [prettyMembers, memberTokens] using hall

theorem pretty {j : Json} (hw : Whole j) (depth : Nat) :
    Reads Clear Pending (pretty depth j).toList (tokens j) := by
  induction hw generalizing depth with
  | null =>
    have h : Reads Clear Pending "null".toList [.bare .null] := word (List.all_eq_true.1 (by decide)) rfl
    simpa [Json.pretty, leaf, tokens] using h
  | bool b =>
    cases b with
    | false =>
      have h : Reads Clear Pending "false".toList [.bare (.bool false)] := word (List.all_eq_true.1 (by decide)) rfl
      simpa [Json.pretty, leaf, tokens] using h
    | true =>
      have h : Reads Clear Pending "true".toList [.bare (.bool true)] := word (List.all_eq_true.1 (by decide)) rfl
      simpa [Json.pretty, leaf, tokens] using h
  | int n => exact int n
  | str s => exact (quote s).pending.ofClear
  | unpaired => exact unpaired.pending.ofClear
  | @arr js _ ih =>
    have hopen : Reads Clear Clear ['['] [.openBracket] := (mark rfl rfl).ofClear
    have hclose : Reads Pending Clear [']'] [.closeBracket] := mark rfl rfl
    cases js with
    | nil => simpa [Json.pretty, leaf, tokens] using hopen.append hclose.pending.ofClear
    | cons j js =>
      have hj := ih j (List.mem_cons_self ..) (depth + 1)
      have hjs := items (fun k hk ↦ ih k (List.mem_cons_of_mem j hk)) (depth + 1)
      have hend := (margin depth).append hclose.pending.ofClear
      have hall := hopen.append ((margin (depth + 1)).ofClear.append (hj.append (hjs.append hend)))
      simpa [Json.pretty, tokens] using hall
  | @obj ms _ ih =>
    have hopen : Reads Clear Clear ['\x7b'] [.openBrace] := (mark rfl rfl).ofClear
    have hclose : Reads Pending Clear ['\x7d'] [.closeBrace] := mark rfl rfl
    cases ms with
    | nil => simpa [Json.pretty, leaf, tokens] using hopen.append hclose.pending.ofClear
    | cons m ms =>
      obtain ⟨k, j⟩ := m
      have hj := member (depth + 1) k (ih (k, j) (List.mem_cons_self ..) (depth + 1))
      have hms := members (fun n hn ↦ ih n (List.mem_cons_of_mem (k, j) hn)) (depth + 1)
      have hend := (margin depth).append hclose.pending.ofClear
      have hall := hopen.append ((margin (depth + 1)).ofClear.append (hj.append (hms.append hend)))
      simpa [Json.pretty, tokens] using hall

end Reads

theorem tokens?_pretty {j : Json} (hw : Whole j) (depth : Nat) :
    tokens? (pretty depth j).toList = some (tokens j) := by
  obtain ⟨y, hy, hp⟩ := Reads.pretty hw depth Lexer.start [] rfl
  have hf : y.flush = some ⟨.between, (tokens j).reverse ++ []⟩ := hp
  rw [tokens?, hy, Option.bind_some, Lexer.finish, hf]
  simp

end Durability.Json

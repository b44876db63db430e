import PersonaMessage.NotaCodec

/-! NOTA as text: a lexer that reads one character at a time, the renderer it inverts, and
the codecs over their tokens. Together they meet every documented behaviour of the linked
library, so the parameter of the development can be instantiated. -/
namespace PersonaMessage.NotaText
open NotaCodec

def quote : Char := .ofNat 34
def backslash : Char := .ofNat 92

inductive Mode
  | idle
  | word (text : List Char)
  | string (text : List Char)
  | escape (text : List Char)
  | comment
  deriving DecidableEq

structure LexState where
  mode : Mode
  tokens : List Token
  deriving DecidableEq

def delimiters : List Char := ['(', ')', '[', ']', quote, ' ', '\t', '\r', '\n']

/-- A bare word is a number if it has digits only. -/
def wordToken (text : List Char) : Token :=
  if text.all Char.isDigit then .uint (UInt64.ofNat (Nat.ofDigitChars 10 text 0))
  else .ident (String.ofList text)

/-- The first character of a token, or one between tokens. -/
def start (tokens : List Token) (c : Char) : LexState :=
  if c = '(' then ⟨.idle, tokens ++ [.lparen]⟩
  else if c = ')' then ⟨.idle, tokens ++ [.rparen]⟩
  else if c = '[' then ⟨.idle, tokens ++ [.lbracket]⟩
  else if c = ']' then ⟨.idle, tokens ++ [.rbracket]⟩
  else if c = quote then ⟨.string [], tokens⟩
  else if c = ';' then ⟨.comment, tokens⟩
  else if c ∈ delimiters then ⟨.idle, tokens⟩
  else ⟨.word [c], tokens⟩

def feed (s : LexState) (c : Char) : LexState :=
  match s.mode with
  | .idle => start s.tokens c
  | .word text =>
    if c ∈ delimiters then start (s.tokens ++ [wordToken text]) c
    else ⟨.word (text ++ [c]), s.tokens⟩
  | .string text =>
    if c = quote then ⟨.idle, s.tokens ++ [.str (String.ofList text)]⟩
    else if c = backslash then ⟨.escape text, s.tokens⟩
    else ⟨.string (text ++ [c]), s.tokens⟩
  | .escape text => ⟨.string (text ++ [c]), s.tokens⟩
  | .comment => if c = '\n' then ⟨.idle, s.tokens⟩ else s

def finish (s : LexState) : Decoder :=
  match s.mode with
  | .idle => ⟨s.tokens, none⟩
  | .word text => ⟨s.tokens ++ [wordToken text], none⟩
  | .string _ => ⟨s.tokens, some (.other "unterminated string")⟩
  | .escape _ => ⟨s.tokens, some (.other "unterminated string")⟩
  | .comment => ⟨s.tokens, none⟩

def lex (text : String) : Decoder := finish (text.toList.foldl feed ⟨.idle, []⟩)

def escaped (text : List Char) : List Char :=
  text.flatMap fun c => if c = quote ∨ c = backslash then [backslash, c] else [c]

def tokenChars : Token → List Char
  | .lparen => ['(']
  | .rparen => [')']
  | .lbracket => ['[']
  | .rbracket => [']']
  | .ident name => name.toList
  | .str text => quote :: escaped text.toList ++ [quote]
  | .uint value => Nat.toDigits 10 value.toNat
  | .other _ => []

def Token.isOpening : Token → Bool
  | .lparen => true
  | .lbracket => true
  | _ => false

def Token.isClosing : Token → Bool
  | .rparen => true
  | .rbracket => true
  | _ => false

/-- Tokens are set apart by a blank, except inside the brackets that surround them. -/
def gap (previous : Option Token) (token : Token) : List Char :=
  match previous with
  | none => []
  | some previous => if Token.isOpening previous || Token.isClosing token then [] else [' ']

def renderFrom : Option Token → List Token → List Char
  | _, [] => []
  | previous, token :: ts => gap previous token ++ tokenChars token ++ renderFrom (some token) ts

def render (ts : List Token) : String := String.ofList (renderFrom none ts)

def writable : Token → Prop
  | .ident name => isTypeName name
  | .other _ => False
  | _ => True

theorem feed_append (s : LexState) (cs ds : List Char) :
    (cs ++ ds).foldl feed s = ds.foldl feed (cs.foldl feed s) := List.foldl_append

theorem not_delimiter {c : Char} (h : c.isAlphanum) : c ∉ delimiters ∧ c ≠ ';' := by
  constructor
  · intro hm
    have hall : delimiters.all (fun d => !d.isAlphanum) := rfl
    have hc := List.all_eq_true.mp hall c hm
    simp [h] at hc
  · rintro rfl
    exact absurd h (by decide)

theorem feed_word {cs : List Char} (h : ∀ c ∈ cs, c.isAlphanum) (text : List Char)
    (tokens : List Token) :
    cs.foldl feed ⟨.word text, tokens⟩ = ⟨.word (text ++ cs), tokens⟩ := by
  induction cs generalizing text with
  | nil => simp
  | cons c cs ih =>
    have hc := not_delimiter (h c List.mem_cons_self)
    have hfeed : feed ⟨.word text, tokens⟩ c = ⟨.word (text ++ [c]), tokens⟩ := by
      simp [feed, hc.1]
    rw [List.foldl_cons, hfeed, ih (fun d hd => h d (List.mem_cons_of_mem _ hd))]
    simp

theorem start_word {c : Char} (h : c.isAlphanum) (tokens : List Token) :
    start tokens c = ⟨.word [c], tokens⟩ := by
  obtain ⟨hm, hs⟩ := not_delimiter h
  have hne : ∀ d ∈ delimiters, c ≠ d := fun d hd he => hm (he ▸ hd)
  unfold start
  rw [if_neg (hne '(' (by decide)), if_neg (hne ')' (by decide)), if_neg (hne '[' (by decide)),
    if_neg (hne ']' (by decide)), if_neg (hne quote (by decide)), if_neg hs, if_neg hm]

/-- A word is read whole, and stays open until a delimiter comes. -/
theorem feed_start {cs : List Char} (hne : cs ≠ []) (h : ∀ c ∈ cs, c.isAlphanum)
    (tokens : List Token) : cs.foldl feed ⟨.idle, tokens⟩ = ⟨.word cs, tokens⟩ := by
  cases cs with
  | nil => exact absurd rfl hne
  | cons c cs =>
    have hc : feed ⟨.idle, tokens⟩ c = ⟨.word [c], tokens⟩ :=
      start_word (h c List.mem_cons_self) tokens
    rw [List.foldl_cons, hc, feed_word (fun d hd => h d (List.mem_cons_of_mem _ hd))]
    rfl

theorem feed_escaped (cs text : List Char) (tokens : List Token) :
    (escaped cs).foldl feed ⟨.string text, tokens⟩ = ⟨.string (text ++ cs), tokens⟩ := by
  induction cs generalizing text with
  | nil => simp [escaped]
  | cons c cs ih =>
    have hc : (if c = quote ∨ c = backslash then [backslash, c] else [c]).foldl feed
        ⟨.string text, tokens⟩ = ⟨.string (text ++ [c]), tokens⟩ := by
      have hq : backslash ≠ quote := by decide
      by_cases h : c = quote ∨ c = backslash
      · simp [h, feed, hq]
      · obtain ⟨h1, h2⟩ := not_or.mp h
        simp [feed, h1, h2]
    rw [escaped, List.flatMap_cons, feed_append, hc]
    rw [escaped] at ih
    rw [ih]
    simp

theorem typeName_chars {name : String} (h : isTypeName name) :
    name.toList ≠ [] ∧ (∀ c ∈ name.toList, c.isAlphanum) ∧
      name.toList.all Char.isDigit = false := by
  unfold isTypeName at h
  split at h
  · cases h
  · next c cs hcs =>
    obtain ⟨hc, hall⟩ := Bool.and_eq_true_iff.mp h
    rw [hcs]
    refine ⟨by simp, fun d hd => ?_, ?_⟩
    · rcases List.mem_cons.mp hd with rfl | hd
      · simp [Char.isAlphanum, Char.isAlpha, hc]
      · exact List.all_eq_true.mp hall d hd
    · have hdigit : c.isDigit = false := by
        simp only [Char.isUpper, Char.isDigit, decide_eq_true_eq] at hc ⊢
        simp only [Bool.and_eq_false_iff, decide_eq_false_iff_not]
        right
        intro hle
        have h1 := UInt32.le_iff_toNat_le.mp hle
        have h2 := UInt32.le_iff_toNat_le.mp hc.1
        simp at h1 h2
        omega
      simp [hdigit]

/-- What has been read is these tokens, the last of which may still be open. -/
def Holds (s : LexState) (ts : List Token) : Prop :=
  s = ⟨.idle, ts⟩ ∨ ∃ text tokens, s = ⟨.word text, tokens⟩ ∧ tokens ++ [wordToken text] = ts

theorem Holds.finish {s : LexState} {ts : List Token} (h : Holds s ts) :
    finish s = ⟨ts, none⟩ := by
  rcases h with rfl | ⟨text, tokens, rfl, rfl⟩
  · rfl
  · rfl

/-- A delimiter closes the open word. -/
theorem Holds.delimiter {s : LexState} {ts : List Token} (h : Holds s ts) {c : Char}
    (hc : c ∈ delimiters) : feed s c = feed ⟨.idle, ts⟩ c := by
  rcases h with rfl | ⟨text, tokens, rfl, rfl⟩
  · rfl
  · simp [feed, hc]

theorem feed_blank {c : Char} (h : c.isWhitespace) (ts : List Token) :
    c ∈ delimiters ∧ feed ⟨.idle, ts⟩ c = ⟨.idle, ts⟩ := by
  simp only [Char.isWhitespace, Bool.or_eq_true, decide_eq_true_eq] at h
  rcases h with ((rfl | rfl) | rfl) | rfl
  · exact ⟨by decide, rfl⟩
  · exact ⟨by decide, rfl⟩
  · exact ⟨by decide, rfl⟩
  · exact ⟨by decide, rfl⟩

theorem Holds.blank {s : LexState} {ts : List Token} (h : Holds s ts) {cs : List Char}
    (hcs : ∀ c ∈ cs, c.isWhitespace) : Holds (cs.foldl feed s) ts := by
  induction cs generalizing s with
  | nil => exact h
  | cons c cs ih =>
    obtain ⟨hc, hfeed⟩ := feed_blank (hcs c List.mem_cons_self) ts
    rw [List.foldl_cons, h.delimiter hc, hfeed]
    exact ih (Or.inl rfl) (fun d hd => hcs d (List.mem_cons_of_mem _ hd))

/-- From between two tokens, the characters of one token are read as that token. -/
theorem feed_token {t : Token} (h : writable t) (ts : List Token) :
    Holds ((tokenChars t).foldl feed ⟨.idle, ts⟩) (ts ++ [t]) := by
  cases t with
  | lparen => exact Or.inl rfl
  | rparen => exact Or.inl rfl
  | lbracket => exact Or.inl rfl
  | rbracket => exact Or.inl rfl
  | ident name =>
    obtain ⟨hne, hall, hdigit⟩ := typeName_chars h
    refine Or.inr ⟨name.toList, ts, feed_start hne hall ts, ?_⟩
    simp [wordToken, hdigit, String.ofList_toList]
  | str text =>
    have hfeed : (escaped text.toList).foldl feed ⟨.string [], ts⟩ = ⟨.string text.toList, ts⟩ :=
      feed_escaped ..
    have hopen : feed ⟨.idle, ts⟩ quote = ⟨.string [], ts⟩ := rfl
    have hclose : feed ⟨.string text.toList, ts⟩ quote = ⟨.idle, ts ++ [Token.str text]⟩ := by
      simp [feed, String.ofList_toList]
    refine Or.inl ?_
    simp only [tokenChars, List.cons_append, List.foldl_cons, hopen, feed_append, hfeed,
      List.foldl_nil, hclose]
  | uint value =>
    have hall : ∀ c ∈ Nat.toDigits 10 value.toNat, c.isDigit :=
      fun c hc => Nat.isDigit_of_mem_toDigits (by decide) (by decide) hc
    refine Or.inr ⟨_, ts, feed_start Nat.toDigits_ne_nil (fun c hc => ?_) ts, ?_⟩
    · simp [Char.isAlphanum, hall c hc]
    · have hdigits : (Nat.toDigits 10 value.toNat).all Char.isDigit := List.all_eq_true.mpr hall
      simp [wordToken, hdigits, Nat.ofDigitChars_ten_toDigits]
  | other tag => exact absurd h id

theorem Token.isClosing_chars {t : Token} (h : Token.isClosing t) :
    ∃ c ∈ delimiters, tokenChars t = [c] := by
  cases t with
  | rparen => exact ⟨')', by decide, rfl⟩
  | rbracket => exact ⟨']', by decide, rfl⟩
  | _ => cases h

theorem wordToken_not_opening (text : List Char) : Token.isOpening (wordToken text) = false := by
  unfold wordToken
  split_ifs <;> rfl

/-- Nothing stays open after an opening bracket. -/
theorem Holds.opening {s : LexState} {ts : List Token} (h : Holds s ts) {previous : Token}
    (hp : ts.getLast? = some previous) (ho : Token.isOpening previous) : s = ⟨.idle, ts⟩ := by
  rcases h with rfl | ⟨text, tokens, rfl, rfl⟩
  · rfl
  · rw [List.getLast?_concat] at hp
    obtain rfl := Option.some.inj hp
    rw [wordToken_not_opening] at ho
    cases ho

/-- Between two tokens the gap, or the next token itself, ends an open word. -/
theorem feed_gap {s : LexState} {ts : List Token} (h : Holds s ts) (t : Token) :
    (gap ts.getLast? t ++ tokenChars t).foldl feed s =
      (tokenChars t).foldl feed ⟨.idle, ts⟩ := by
  cases hp : ts.getLast? with
  | none =>
    obtain rfl := List.getLast?_eq_none_iff.mp hp
    rcases h with rfl | ⟨text, tokens, rfl, hts⟩
    · rfl
    · simp at hts
  | some previous =>
    simp only [gap]
    by_cases ho : Token.isOpening previous
    · rw [h.opening hp ho, ho, Bool.true_or, if_pos rfl, List.nil_append]
    · by_cases hc : Token.isClosing t
      · obtain ⟨c, hm, hchars⟩ := Token.isClosing_chars hc
        rw [hc, Bool.or_true, if_pos rfl, List.nil_append, hchars]
        exact h.delimiter hm
      · have hneither : ¬ (Token.isOpening previous || Token.isClosing t) := by simp [ho, hc]
        rw [if_neg hneither, List.singleton_append, List.foldl_cons,
          h.delimiter (c := ' ') (by decide)]
        rfl

theorem feed_renderFrom {s : LexState} {ts us : List Token} (h : Holds s ts)
    (hw : ∀ t ∈ us, writable t) :
    Holds ((renderFrom ts.getLast? us).foldl feed s) (ts ++ us) := by
  induction us generalizing s ts with
  | nil => simpa [renderFrom] using h
  | cons t us ih =>
    have ht := feed_token (hw t List.mem_cons_self) ts
    have hrest := ih ht (fun u hu => hw u (List.mem_cons_of_mem _ hu))
    rw [List.getLast?_concat] at hrest
    rw [renderFrom, feed_append, feed_gap h]
    simpa using hrest

/-- The lexer inverts the renderer, and ignores blanks at the end of the text. -/
theorem lex_render {ts : List Token} {blank : String} (hw : ∀ t ∈ ts, writable t)
    (hb : ∀ c ∈ blank.toList, c.isWhitespace) : lex (render ts ++ blank) = ⟨ts, none⟩ := by
  have hts : Holds ((renderFrom none ts).foldl feed ⟨.idle, []⟩) ts :=
    @feed_renderFrom _ [] ts (Or.inl rfl) hw
  unfold lex
  rw [String.toList_append, feed_append, render, String.toList_ofList]
  exact (hts.blank hb).finish

/-! The codecs over these tokens. -/

/-- What a decoder reports where it wanted something else. -/
def unexpected {α : Type} (expected : String) (d : Decoder) : Except NotaError α :=
  match d.tokens, d.failure with
  | token :: _, _ => .error (.unexpectedToken expected token)
  | [], some e => .error e
  | [], none => .error (.unexpectedEnd expected)

def expect (token : Token) (expected : String) (d : Decoder) : Except NotaError Decoder :=
  match d.tokens with
  | [] => unexpected expected d
  | t :: ts => if t = token then .ok ⟨ts, d.failure⟩ else unexpected expected d

def string : Codec String where
  encode text := .ok [.str text]
  decode d :=
    match d.tokens with
    | .str text :: ts => .ok (text, ⟨ts, d.failure⟩)
    | .ident name :: ts => .ok (name, ⟨ts, d.failure⟩)
    | _ => unexpected "string" d

def u64 : Codec UInt64 where
  encode value := .ok [.uint value]
  decode d :=
    match d.tokens with
    | .uint value :: ts => .ok (value, ⟨ts, d.failure⟩)
    | _ => unexpected "integer" d

def encodeAll {α : Type} (c : Codec α) : List α → Except NotaError (List Token)
  | [] => .ok []
  | a :: as => do
    let ts ← c.encode a
    let us ← encodeAll c as
    return ts ++ us

/-- Items up to the closing bracket; each takes a token at least. -/
def decodeAll {α : Type} (c : Codec α) : ℕ → Decoder → Except NotaError (List α × Decoder)
  | 0, d => unexpected "item" d
  | fuel+1, d =>
    match d.tokens with
    | .rbracket :: ts => .ok ([], ⟨ts, d.failure⟩)
    | _ => do
      let (a, d) ← c.decode d
      let (as, d) ← decodeAll c fuel d
      return (a :: as, d)

def vec {α : Type} (c : Codec α) : Codec (List α) where
  encode as := do
    let ts ← encodeAll c as
    return .lbracket :: (ts ++ [.rbracket])
  decode d := do
    let d ← expect .lbracket "[" d
    decodeAll c (d.tokens.length+1) d

def record {α : Type} (head : String) (c : Codec α) : Codec α where
  encode a := do
    let ts ← c.encode a
    return .lparen :: .ident head :: (ts ++ [.rparen])
  decode d := do
    let d ← expect .lparen "(" d
    let d ← expect (.ident head) head d
    let (a, d) ← c.decode d
    let d ← expect .rparen ")" d
    return (a, d)

def peekRecordHead (d : Decoder) : Except NotaError String :=
  match d.tokens with
  | .lparen :: .ident head :: _ => .ok head
  | _ => unexpected "record" d

theorem string_lawful : string.Lawful writable where
  encode_ok text := ⟨_, rfl⟩
  decode_encode h d := by
    obtain rfl := Except.ok.inj h
    rfl
  writable h t ht := by
    obtain rfl := Except.ok.inj h
    obtain rfl := List.mem_singleton.mp ht
    exact trivial
  starts h := by
    obtain rfl := Except.ok.inj h
    exact ⟨_, [], rfl, by simp, by simp⟩

theorem u64_lawful : u64.Lawful writable where
  encode_ok value := ⟨_, rfl⟩
  decode_encode h d := by
    obtain rfl := Except.ok.inj h
    rfl
  writable h t ht := by
    obtain rfl := Except.ok.inj h
    obtain rfl := List.mem_singleton.mp ht
    exact trivial
  starts h := by
    obtain rfl := Except.ok.inj h
    exact ⟨_, [], rfl, by simp, by simp⟩

section Items
variable {α : Type} {c : Codec α} (hc : c.Lawful writable)
include hc

theorem encodeAll_ok (as : List α) : ∃ ts, encodeAll c as = .ok ts := by
  induction as with
  | nil => exact ⟨[], rfl⟩
  | cons a as ih =>
    obtain ⟨ts, hts⟩ := hc.encode_ok a
    obtain ⟨us, hus⟩ := ih
    exact ⟨ts ++ us, by simp only [encodeAll, hts, hus]; rfl⟩

theorem encodeAll_cons {a : α} {as : List α} {vs : List Token}
    (h : encodeAll c (a :: as) = .ok vs) :
    ∃ ts us, c.encode a = .ok ts ∧ encodeAll c as = .ok us ∧ vs = ts ++ us := by
  obtain ⟨ts, hts⟩ := hc.encode_ok a
  obtain ⟨us, hus⟩ := encodeAll_ok hc as
  simp only [encodeAll, hts, hus] at h
  exact ⟨ts, us, hts, hus, (Except.ok.inj h).symm⟩

theorem encodeAll_writable {as : List α} {vs : List Token} (h : encodeAll c as = .ok vs) :
    ∀ t ∈ vs, writable t := by
  induction as generalizing vs with
  | nil =>
    obtain rfl := Except.ok.inj h
    simp
  | cons a as ih =>
    obtain ⟨ts, us, hts, hus, rfl⟩ := encodeAll_cons hc h
    intro t ht
    rcases List.mem_append.mp ht with ht | ht
    · exact hc.writable hts t ht
    · exact ih hus t ht

theorem decodeAll_encodeAll {as : List α} {vs : List Token} (h : encodeAll c as = .ok vs)
    {fuel : ℕ} (hf : vs.length < fuel) (d : Decoder) :
    decodeAll c fuel (d.after (vs ++ [Token.rbracket])) = .ok (as, d) := by
  obtain ⟨fuel, rfl⟩ : ∃ n, fuel = n+1 := ⟨fuel-1, by omega⟩
  induction as generalizing vs fuel with
  | nil =>
    obtain rfl := Except.ok.inj h
    rfl
  | cons a as ih =>
    obtain ⟨ts, us, hts, hus, rfl⟩ := encodeAll_cons hc h
    obtain ⟨t, ts', rfl, hne, hne'⟩ := hc.starts hts
    obtain ⟨fuel, rfl⟩ : ∃ n, fuel = n+1 :=
      ⟨fuel-1, by simp only [List.length_append, List.length_cons] at hf; omega⟩
    have hrest := ih hus fuel (by
      simp only [List.length_append, List.length_cons] at hf
      omega)
    have hfirst := hc.decode_encode hts (d.after (us ++ [Token.rbracket]))
    rw [List.append_assoc, Decoder.after_append]
    have hstep : decodeAll c (fuel+1+1) ((d.after (us ++ [Token.rbracket])).after (t :: ts')) = (do
        let (a, d) ← c.decode ((d.after (us ++ [Token.rbracket])).after (t :: ts'))
        let (as, d) ← decodeAll c (fuel+1) d
        return (a :: as, d)) := by
      rw [decodeAll]
      split
      · next he =>
        simp only [Decoder.after, List.cons_append, List.cons.injEq] at he
        exact absurd he.1 hne'
      · rfl
    rw [hstep, hfirst]
    simp only [bind, Except.bind, hrest]
    rfl

end Items

theorem vec_lawful {α : Type} {c : Codec α} (hc : c.Lawful writable) :
    (vec c).Lawful writable := by
  have hencode : ∀ {as : List α} {vs : List Token}, (vec c).encode as = .ok vs →
      ∃ ts, encodeAll c as = .ok ts ∧ vs = .lbracket :: (ts ++ [Token.rbracket]) := by
    intro as vs h
    obtain ⟨ts, hts⟩ := encodeAll_ok hc as
    simp only [vec, hts] at h
    exact ⟨ts, hts, (Except.ok.inj h).symm⟩
  refine ⟨fun as => ?_, fun {as vs} h d => ?_, fun {as vs} h t ht => ?_, fun {as vs} h => ?_⟩
  · obtain ⟨ts, hts⟩ := encodeAll_ok hc as
    exact ⟨_, by simp only [vec, hts]; rfl⟩
  · obtain ⟨ts, hts, rfl⟩ := hencode h
    have hall := decodeAll_encodeAll hc hts
      (show ts.length < (d.after (ts ++ [Token.rbracket])).tokens.length+1 by
        simp only [Decoder.after, List.length_append]
        omega) d
    exact hall
  · obtain ⟨ts, hts, rfl⟩ := hencode h
    rcases List.mem_cons.mp ht with rfl | ht
    · exact trivial
    · rcases List.mem_append.mp ht with ht | ht
      · exact encodeAll_writable hc hts t ht
      · obtain rfl := List.mem_singleton.mp ht
        exact trivial
  · obtain ⟨ts, hts, rfl⟩ := hencode h
    exact ⟨_, _, rfl, by simp, by simp⟩

theorem record_encode {α : Type} {head : String} {c : Codec α} {a : α} {vs : List Token}
    (h : (record head c).encode a = .ok vs) :
    ∃ ts, c.encode a = .ok ts ∧ vs = .lparen :: .ident head :: (ts ++ [Token.rparen]) := by
  cases hts : c.encode a with
  | error e =>
    simp only [record, hts] at h
    cases h
  | ok ts =>
    simp only [record, hts] at h
    exact ⟨ts, rfl, (Except.ok.inj h).symm⟩

theorem expect_ok {token : Token} {expected : String} {d d' : Decoder}
    (h : expect token expected d = .ok d') : d.tokens = token :: d'.tokens := by
  unfold expect unexpected at h
  grind

theorem record_lawful {α : Type} {head : String} {c : Codec α} (hh : isTypeName head)
    (hc : c.Lawful writable) : (record head c).Lawful writable := by
  refine ⟨fun a => ?_, fun {a vs} h d => ?_, fun {a vs} h t ht => ?_, fun {a vs} h => ?_⟩
  · obtain ⟨ts, hts⟩ := hc.encode_ok a
    exact ⟨_, by simp only [record, hts]; rfl⟩
  · obtain ⟨ts, hts, rfl⟩ := record_encode h
    have hfields := hc.decode_encode hts (d.after [.rparen])
    rw [← Decoder.after_append] at hfields
    have hopen : expect .lparen "(" (d.after (.lparen :: .ident head :: (ts ++ [Token.rparen]))) =
        .ok (d.after (.ident head :: (ts ++ [Token.rparen]))) := rfl
    have hhead : expect (.ident head) head (d.after (.ident head :: (ts ++ [Token.rparen]))) =
        .ok (d.after (ts ++ [Token.rparen])) := by
      simp [expect, Decoder.after]
    have hclose : expect .rparen ")" (d.after [.rparen]) = .ok d := rfl
    simp only [record, bind, Except.bind, hopen, hhead, hfields, hclose]
    rfl
  · obtain ⟨ts, hts, rfl⟩ := record_encode h
    simp only [List.mem_cons, List.mem_append, List.not_mem_nil, or_false] at ht
    rcases ht with rfl | rfl | ht | rfl
    · exact trivial
    · exact hh
    · exact hc.writable hts t ht
    · exact trivial
  · obtain ⟨ts, hts, rfl⟩ := record_encode h
    exact ⟨_, _, rfl, by simp, by simp⟩

theorem record_decode {α : Type} {head : String} {c : Codec α} {a : α} {d d' : Decoder}
    (h : (record head c).decode d = .ok (a, d')) :
    ∃ ts, d.tokens = .lparen :: .ident head :: ts := by
  cases h1 : expect .lparen "(" d with
  | error e =>
    simp only [record, h1] at h
    cases h
  | ok d1 =>
    cases h2 : expect (.ident head) head d1 with
    | error e =>
      simp only [record, h1, bind, Except.bind, h2] at h
      cases h
    | ok d2 => exact ⟨d2.tokens, by rw [expect_ok h1, expect_ok h2]⟩

/-- The library over these texts. -/
def notaText : NotaLibrary where
  lex := lex
  render := render
  writable := writable
  peekRecordHead := peekRecordHead
  string := string
  u64 := u64
  vec := vec
  record := record
  lex_render := lex_render
  peekRecordHead_record head ts failure := rfl
  peekRecordHead_ok {d head} h := by
    unfold peekRecordHead at h
    split at h
    · next head' ts hd =>
      obtain rfl := Except.ok.inj h
      exact ⟨ts, hd⟩
    · unfold unexpected at h
      split at h <;> cases h
  string_lawful := string_lawful
  u64_lawful := u64_lawful
  vec_lawful := vec_lawful
  record_lawful := record_lawful
  record_encode h := by
    obtain ⟨ts, _, rfl⟩ := record_encode h
    exact ⟨_, rfl⟩
  record_decode := record_decode

end PersonaMessage.NotaText

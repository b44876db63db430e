import Mathlib

/-! Codecs over a token stream, as in the NOTA text format: a decoder is the tokens its text
still holds, an encoder the tokens it has been given. The code of the linked library is
elsewhere, so its functions are a parameter that carries their documented behaviour. -/
namespace PersonaMessage.NotaCodec

/-- Tokens of the NOTA text syntax. -/
inductive Token
  | lparen
  | rparen
  | lbracket
  | rbracket
  | ident (name : String)
  | str (text : String)
  | uint (value : UInt64)
  | other (tag : ℕ)
  deriving DecidableEq

inductive NotaError
  | unknownKindForVerb (verb got : String)
  | unexpectedToken (expected : String) (got : Token)
  | unexpectedEnd (expected : String)
  | other (detail : String)
  deriving DecidableEq

/-- The tokens that are left, and the error that ends them if the text does not end well. -/
structure Decoder where
  tokens : List Token
  failure : Option NotaError
  deriving DecidableEq

def Decoder.peekToken (d : Decoder) : Except NotaError (Option Token) :=
  match d.tokens, d.failure with
  | token :: _, _ => .ok (some token)
  | [], some e => .error e
  | [], none => .ok none

/-- The decoder that still has the given tokens before it. -/
def Decoder.after (d : Decoder) (ts : List Token) : Decoder := ⟨ts ++ d.tokens, d.failure⟩

theorem Decoder.after_append (d : Decoder) (ts us : List Token) :
    d.after (ts ++ us) = (d.after us).after ts := by
  simp [Decoder.after]

structure Codec (α : Type) where
  encode : α → Except NotaError (List Token)
  decode : Decoder → Except NotaError (α × Decoder)

/-- Every value is encoded, by tokens that can be written and that start no end, and decoded
back out of any continuation. -/
structure Codec.Lawful {α : Type} (writable : Token → Prop) (c : Codec α) : Prop where
  encode_ok (a : α) : ∃ ts, c.encode a = .ok ts
  decode_encode {a : α} {ts : List Token} : c.encode a = .ok ts →
    ∀ d, c.decode (d.after ts) = .ok (a, d)
  writable {a : α} {ts : List Token} : c.encode a = .ok ts → ∀ t ∈ ts, writable t
  starts {a : α} {ts : List Token} : c.encode a = .ok ts →
    ∃ t ts', ts = t :: ts' ∧ t ≠ .rparen ∧ t ≠ .rbracket

variable {α β : Type} {writable : Token → Prop}

/-- One field after another, as the derived record codecs do. -/
def Codec.pair (c : Codec α) (e : Codec β) : Codec (α × β) where
  encode p := do
    let ts ← c.encode p.1
    let us ← e.encode p.2
    return ts ++ us
  decode d := do
    let (a, d) ← c.decode d
    let (b, d) ← e.decode d
    return ((a, b), d)

/-- A codec seen through an equivalent type: a derived struct, or a transparent wrapper. -/
def Codec.via (c : Codec α) (unwrap : β → α) (wrap : α → β) : Codec β where
  encode b := c.encode (unwrap b)
  decode d := do
    let (a, d) ← c.decode d
    return (wrap a, d)

theorem Codec.Lawful.pair {c : Codec α} {e : Codec β} (hc : c.Lawful writable)
    (he : e.Lawful writable) : (c.pair e).Lawful writable := by
  have hencode : ∀ {p : α × β} {vs : List Token}, (c.pair e).encode p = .ok vs →
      ∃ ts us, c.encode p.1 = .ok ts ∧ e.encode p.2 = .ok us ∧ vs = ts ++ us := by
    intro p vs h
    obtain ⟨ts, hts⟩ := hc.encode_ok p.1
    obtain ⟨us, hus⟩ := he.encode_ok p.2
    simp only [Codec.pair, hts, hus] at h
    exact ⟨ts, us, hts, hus, (Except.ok.inj h).symm⟩
  refine ⟨fun p => ?_, fun {p vs} h d => ?_, fun {p vs} h t ht => ?_, fun {p vs} h => ?_⟩
  · obtain ⟨ts, hts⟩ := hc.encode_ok p.1
    obtain ⟨us, hus⟩ := he.encode_ok p.2
    exact ⟨ts ++ us, by simp only [Codec.pair, hts, hus]; rfl⟩
  · obtain ⟨ts, us, hts, hus, rfl⟩ := hencode h
    rw [Decoder.after_append]
    simp only [Codec.pair, hc.decode_encode hts]
    have hd : e.decode (d.after us) = .ok (p.2, d) := he.decode_encode hus d
    simp only [bind, Except.bind, hd]
    rfl
  · obtain ⟨ts, us, hts, hus, rfl⟩ := hencode h
    rcases List.mem_append.mp ht with ht | ht
    · exact hc.writable hts t ht
    · exact he.writable hus t ht
  · obtain ⟨ts, us, hts, hus, rfl⟩ := hencode h
    obtain ⟨t, ts', rfl, hne⟩ := hc.starts hts
    exact ⟨t, ts' ++ us, rfl, hne⟩

theorem Codec.Lawful.via {c : Codec α} (hc : c.Lawful writable) {unwrap : β → α} {wrap : α → β}
    (hw : ∀ b, wrap (unwrap b) = b) : (c.via unwrap wrap).Lawful writable := by
  refine ⟨fun b => hc.encode_ok (unwrap b), fun {b ts} h d => ?_, fun h => hc.writable h,
    fun h => hc.starts h⟩
  have hd : c.decode (d.after ts) = .ok (unwrap b, d) := hc.decode_encode h d
  simp only [Codec.via, hd, bind, Except.bind, hw]
  rfl

/-- A name that a derived record codec writes as its head. -/
def isTypeName (name : String) : Bool :=
  match name.toList with
  | [] => false
  | c :: cs => c.isUpper && cs.all Char.isAlphanum

/-- `Decoder::new`, `Encoder::into_string`, `peek_record_head`, the codecs of `String`, `u64`
and `Vec`, and the codec that `NotaRecord` derives from that of the fields in order. -/
structure NotaLibrary where
  lex : String → Decoder
  render : List Token → String
  writable : Token → Prop
  peekRecordHead : Decoder → Except NotaError String
  string : Codec String
  u64 : Codec UInt64
  vec : {α : Type} → Codec α → Codec (List α)
  record : {α : Type} → String → Codec α → Codec α
  lex_render {ts : List Token} {blank : String} : (∀ t ∈ ts, writable t) →
    (∀ c ∈ blank.toList, c.isWhitespace) → lex (render ts ++ blank) = ⟨ts, none⟩
  peekRecordHead_record (head : String) (ts : List Token) (failure : Option NotaError) :
    peekRecordHead ⟨.lparen :: .ident head :: ts, failure⟩ = .ok head
  peekRecordHead_ok {d : Decoder} {head : String} : peekRecordHead d = .ok head →
    ∃ ts, d.tokens = .lparen :: .ident head :: ts
  string_lawful : string.Lawful writable
  u64_lawful : u64.Lawful writable
  vec_lawful {α : Type} {c : Codec α} : c.Lawful writable → (vec c).Lawful writable
  record_lawful {α : Type} {head : String} {c : Codec α} : isTypeName head →
    c.Lawful writable → (record head c).Lawful writable
  record_encode {α : Type} {head : String} {c : Codec α} {a : α} {ts : List Token} :
    (record head c).encode a = .ok ts → ∃ ts', ts = .lparen :: .ident head :: ts'
  record_decode {α : Type} {head : String} {c : Codec α} {a : α} {d d' : Decoder} :
    (record head c).decode d = .ok (a, d') → ∃ ts, d.tokens = .lparen :: .ident head :: ts

end PersonaMessage.NotaCodec

import RacOS.Net.Tcp

/-!
# DNS messages

The model of `net/dns.rs`: queries for one A record, and the first A record of a
response.  Messages are lists of bytes; every index is checked against the
length before it is read, as in the source.
-/

namespace RacOS.Net.Dns

open Tcp (Ip Mac)

abbrev headerLen : ℕ := 12

def typeA : UInt16 := 1

def classIn : UInt16 := 1

inductive DnsError
  | nameTooLong
  | labelTooLong
  | truncated
  | badFormat
  | notFound
  | loop
deriving DecidableEq, Repr

/-- A 16-bit number in network order. -/
def toBeBytes (n : UInt16) : List UInt8 := [(n >>> 8).toUInt8, n.toUInt8]

/-- The 16-bit number in network order at an offset. -/
def u16At (msg : List UInt8) (off : ℕ) : UInt16 :=
  (msg.getD off 0).toUInt16 <<< 8 ||| (msg.getD (off + 1) 0).toUInt16

/-- The loop of `encode_name` over the labels still to be written, with what is
in the buffer of size `room` so far. -/
def encodeLabels (room : ℕ) : List (List UInt8) → List UInt8 → Except DnsError (List UInt8)
  | [], out => if room ≤ out.length then .error .nameTooLong else .ok (out ++ [0])
  | label :: labels, out =>
    if label = [] then encodeLabels room labels out
    else if 63 < label.length then .error .labelTooLong
    else if room < out.length + 1 + label.length then .error .nameTooLong
    else encodeLabels room labels (out ++ UInt8.ofNat label.length :: label)

/-- A host name in wire format. -/
def encodeName (room : ℕ) (name : List UInt8) : Except DnsError (List UInt8) :=
  encodeLabels room (name.splitOn 0x2E) []

/-- A query for the A record of `name`, written to a buffer of `outLen` bytes. -/
def buildQueryA (outLen : ℕ) (id : UInt16) (name : List UInt8) : Except DnsError (List UInt8) :=
  if outLen < headerLen then .error .nameTooLong
  else do
    let encoded ← encodeName (outLen - headerLen) name
    if outLen < headerLen + encoded.length + 4 then .error .nameTooLong
    else
      .ok (toBeBytes id ++ toBeBytes 0x0100 ++ toBeBytes 1 ++ toBeBytes 0 ++ toBeBytes 0 ++
        toBeBytes 0 ++ encoded ++ toBeBytes typeA ++ toBeBytes classIn)

/-- Skip the name at `off`; the argument is how many labels may still follow. -/
def skipName (msg : List UInt8) : (hops : ℕ) → ℕ → Except DnsError ℕ
  | hops, off =>
    if msg.length ≤ off then .error .truncated
    else
      let len := msg.getD off 0
      if len = 0 then .ok (off + 1)
      else if len &&& 0xC0 = 0xC0 then
        if msg.length ≤ off + 1 then .error .truncated else .ok (off + 2)
      else if len &&& 0xC0 ≠ 0 then .error .badFormat
      else
        match hops with
        | 0 => .error .loop
        | hops + 1 => skipName msg hops (off + 1 + len.toNat)

/-- The loop over the questions of a response. -/
def skipQuestions (msg : List UInt8) : (count : ℕ) → ℕ → Except DnsError ℕ
  | 0, off => .ok off
  | count + 1, off => do
    let off ← skipName msg 128 off
    if msg.length < off + 4 then .error .truncated
    else skipQuestions msg count (off + 4)

/-- The loop over the answers of a response, up to the first A record. -/
def firstAnswer (msg : List UInt8) : (count : ℕ) → ℕ → Except DnsError Ip
  | 0, _ => .error .notFound
  | count + 1, off => do
    let off ← skipName msg 128 off
    if msg.length < off + 10 then .error .truncated
    else
      let rdlength := (u16At msg (off + 8)).toNat
      let rdata := off + 10
      if msg.length < rdata + rdlength then .error .truncated
      else if u16At msg off = typeA ∧ rdlength = 4 then
        .ok #v[msg.getD rdata 0, msg.getD (rdata + 1) 0, msg.getD (rdata + 2) 0,
          msg.getD (rdata + 3) 0]
      else firstAnswer msg count (rdata + rdlength)

/-- The first A record of a response. -/
def parseFirstA (msg : List UInt8) : Except DnsError Ip :=
  if msg.length < headerLen then .error .truncated
  else if u16At msg 2 &&& 0x8000 = 0 then .error .badFormat
  else if u16At msg 2 &&& 0x000F ≠ 0 ∨ u16At msg 6 = 0 then .error .notFound
  else do
    let off ← skipQuestions msg (u16At msg 4).toNat headerLen
    firstAnswer msg (u16At msg 6).toNat off

/-! ## A response -/

theorem u16At_toBeBytes (n : UInt16) (rest : List UInt8) : u16At (toBeBytes n ++ rest) 0 = n := by
  apply UInt16.toNat_inj.mp
  have hlt : n.toNat < 2 ^ 16 := n.toNat_lt
  have hbytes : (u16At (toBeBytes n ++ rest) 0).toNat =
      (n.toNat / 256 % 256) <<< 8 % 65536 ||| n.toNat % 256 := by
    simp [u16At, toBeBytes, Nat.shiftRight_eq_div_pow]
  have hhigh : (n.toNat / 256 % 256) <<< 8 % 65536 = (n.toNat / 256) <<< 8 := by
    simp only [Nat.shiftLeft_eq]
    omega
  have hlow : n.toNat % 256 < 2 ^ 8 := Nat.mod_lt _ (by decide)
  rw [hbytes, hhigh, ← Nat.shiftLeft_add_eq_or_of_lt hlow, Nat.shiftLeft_eq]
  omega

/-- A response with one A record and no question. -/
def response (id : UInt16) (a b c d : UInt8) : List UInt8 :=
  toBeBytes id ++ [0x80, 0, 0, 0, 0, 1, 0, 0, 0, 0, 0, 0, 1, 0, 1, 0, 0, 0, 0, 0, 4, a, b, c, d]

theorem parseFirstA_response (id : UInt16) (a b c d : UInt8) :
    parseFirstA (response id a b c d) = .ok #v[a, b, c, d] := by
  generalize hm : response id a b c d = msg
  have hlen : msg.length = 27 := by rw [← hm]; rfl
  have hflags : u16At msg 2 = 0x8000 := by
    simp [← hm, u16At, response, toBeBytes]
    decide
  have hquestions : u16At msg 4 = 0 := by simp [← hm, u16At, response, toBeBytes]
  have hanswers : u16At msg 6 = 1 := by simp [← hm, u16At, response, toBeBytes]
  have htype : u16At msg 13 = 1 := by simp [← hm, u16At, response, toBeBytes]
  have hdata : u16At msg 21 = 4 := by simp [← hm, u16At, response, toBeBytes]
  have hskip : skipName msg 128 12 = .ok 13 := by rw [← hm]; rfl
  have hfirst : firstAnswer msg 1 12 = .ok #v[a, b, c, d] := by
    unfold firstAnswer
    rw [hskip]
    dsimp only [Bind.bind, Except.bind]
    rw [hlen, hdata, htype, ← hm]
    rfl
  unfold parseFirstA
  rw [hlen, hflags, hquestions, hanswers, if_neg (by decide), if_neg (by decide),
    if_neg (by decide)]
  exact hfirst

end RacOS.Net.Dns

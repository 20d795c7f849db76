import Rustruct.Protocols.DNSName

/-!
# DNS messages

The RDATA types, questions, resource records and whole messages of `rustruct.protocols.dns`.
-/

namespace Rustruct.DNS

/-- The record types with an RDATA class. -/
inductive RDataKind where
  | a | aaaa | ns | cname | dname | ptr | mx | soa | srv | naptr | ds | dnskey | rrsig | nsec | caa
  | https | loc | rp | tlsa | sshfp | txt
  deriving DecidableEq, Repr

namespace RDataKind

def rtype : RDataKind → Int
  | a => 1 | ns => 2 | cname => 5 | soa => 6 | ptr => 12 | mx => 15 | txt => 16 | rp => 17
  | aaaa => 28 | loc => 29 | srv => 33 | naptr => 35 | dname => 39 | ds => 43 | sshfp => 44
  | rrsig => 46 | nsec => 47 | dnskey => 48 | tlsa => 52 | https => 65 | caa => 257

def all : List RDataKind :=
  [a, aaaa, ns, cname, dname, ptr, mx, soa, srv, naptr, ds, dnskey, rrsig, nsec, caa, https, loc, rp,
    tlsa, sshfp, txt]

/-- `RDataKind(rtype)` -/
def ofRType (n : Int) : Option RDataKind := all.find? fun kind => kind.rtype = n

end RDataKind

/-- Raw RDATA of a record type the registry does not know. -/
structure UnknownRData where
  rtype : Int
  data : Bytes
  unregistered : RDataKind.ofRType rtype = none
  deriving DecidableEq

/-- `LOC` carries the integers of the wire, the conversions from and to floats are left out. -/
inductive RData where
  | a (address : Int)
  | aaaa (address : Bytes)
  /-- `NS`, `CNAME`, `PTR` and `DNAME`. -/
  | ns (target : String)
  | cname (target : String)
  | ptr (target : String)
  | dname (target : String)
  | mx (preference : Int) (exchange : String)
  | soa (mname rname : String) (serial refresh retry expire minimum : Int)
  | srv (priority weight port : Int) (target : String)
  | naptr (order preference : Int) (flags service regexp replacement : String)
  | ds (keyTag algorithm digestType : Int) (digest : Bytes)
  | dnskey (flags protocol algorithm : Int) (key : Bytes)
  | rrsig (typeCovered algorithm labels originalTtl expiration inception keyTag : Int)
      (signer : String) (signature : Bytes)
  | nsec (nextDomain : String) (rrtypes : List Int)
  | caa (flags : Int) (tag value : String)
  | https (priority : Int) (target : String) (params : List (Int × Bytes))
  | loc (version size hPrecision vPrecision latitude longitude altitude : Int)
  | rp (mbox txt : String)
  | tlsa (usage selector matchingType : Int) (certData : Bytes)
  | sshfp (algorithm fpType : Int) (fingerprint : Bytes)
  | txt (strings : List Bytes)
  | unknown (d : UnknownRData)
  deriving DecidableEq

/-- The type a record of this data is written with. -/
def RData.rtype : RData → Int
  | .a .. => RDataKind.a.rtype
  | .aaaa .. => RDataKind.aaaa.rtype
  | .ns .. => RDataKind.ns.rtype
  | .cname .. => RDataKind.cname.rtype
  | .ptr .. => RDataKind.ptr.rtype
  | .dname .. => RDataKind.dname.rtype
  | .mx .. => RDataKind.mx.rtype
  | .soa .. => RDataKind.soa.rtype
  | .srv .. => RDataKind.srv.rtype
  | .naptr .. => RDataKind.naptr.rtype
  | .ds .. => RDataKind.ds.rtype
  | .dnskey .. => RDataKind.dnskey.rtype
  | .rrsig .. => RDataKind.rrsig.rtype
  | .nsec .. => RDataKind.nsec.rtype
  | .caa .. => RDataKind.caa.rtype
  | .https .. => RDataKind.https.rtype
  | .loc .. => RDataKind.loc.rtype
  | .rp .. => RDataKind.rp.rtype
  | .tlsa .. => RDataKind.tlsa.rtype
  | .sshfp .. => RDataKind.sshfp.rtype
  | .txt .. => RDataKind.txt.rtype
  | .unknown d => d.rtype

/-- One octet of length and as many bytes. -/
def appendCounted (out data : Bytes) : Option Bytes := do some ((← appendByte out data.length) ++ data)

def writeCharString (out : Bytes) (value : String) : Option Bytes := do
  appendCounted out (← encode value .ascii)

/-- A slice past the end is shorter, the offset returned is not. -/
def readCharString (buf : Bytes) (off : Nat) : Option (String × Nat) := do
  let stop := off + 1 + (← buf[off]?).toNat
  some (← decode (pySlice buf (off + 1) stop) .ascii, stop)

def appendStrings : List Bytes → Bytes → Option Bytes
  | [], out => some out
  | s :: strings, out => do appendStrings strings (← appendCounted out s)

/-- The loop `while pos < end` of `TXT`, `NSEC` and `HTTPS`: a header of `head + 1` bytes says how many
bytes follow it. A slice of them past the end of the buffer is shorter. -/
def readChunks {α : Type} (head : Nat) (header : Bytes → Nat → Option (Nat × (Bytes → α))) (buf : Bytes)
    (stop pos : Nat) : Option (List α) :=
  if pos < stop then
    match header buf pos with
    | none => none
    | some (n, item) => do
      let rest ← readChunks head header buf stop (pos + (head + 1) + n)
      some (item (pySlice buf (pos + (head + 1)) (pos + (head + 1) + n)) :: rest)
  else some []
termination_by stop - pos

def stringHeader (buf : Bytes) (pos : Nat) : Option (Nat × (Bytes → Bytes)) := do
  some ((← buf[pos]?).toNat, id)

/-- The loop of `TXT.unpack`. -/
def readStrings (buf : Bytes) (stop pos : Nat) : Option (List Bytes) :=
  readChunks 0 stringHeader buf stop pos

/-- `windows.setdefault(window, bytearray(32))[bit // 8] |= 0x80 >> (bit % 8)` -/
def setBit : List (Int × Bytes) → Int → Nat → List (Int × Bytes)
  | [], window, bit => [(window, (List.replicate 32 0).set (bit / 8) (UInt8.ofNat (0x80 / 2 ^ (bit % 8))))]
  | (w, bitmap) :: windows, window, bit =>
    if w = window then
      (w, bitmap.set (bit / 8)
        (UInt8.ofNat ((bitmap.getD (bit / 8) 0).toNat ||| 0x80 / 2 ^ (bit % 8)))) :: windows
    else (w, bitmap) :: setBit windows window bit

/-- A bitmap without its trailing zero bytes. -/
def trimBitmap (bitmap : Bytes) : Bytes := (bitmap.reverse.dropWhile fun b => b == 0).reverse

def appendWindows : List (Int × Bytes) → Bytes → Option Bytes
  | [], out => some out
  | (window, bitmap) :: windows, out => do
    if 0 ≤ window then
      let out ← appendByte out window.toNat
      appendWindows windows (← appendCounted out (trimBitmap bitmap))
    else none

def encodeTypeBitmap (rrtypes : List Int) : Option Bytes :=
  let windows := rrtypes.foldl (fun windows rrtype =>
    setBit windows (rrtype.fdiv 256) (rrtype.fmod 256).toNat) []
  appendWindows (windows.mergeSort fun a b => a.1 ≤ b.1) []

/-- The types of one window. -/
def bitmapTypes (window : Nat) (bitmap : Bytes) : List Int :=
  (List.range bitmap.length).flatMap fun i =>
    (List.range 8).filterMap fun bit =>
      if (bitmap.getD i 0).toNat &&& 0x80 / 2 ^ bit ≠ 0 then some (window * 256 + i * 8 + bit : Nat)
      else none

def windowHeader (buf : Bytes) (pos : Nat) : Option (Nat × (Bytes → List Int)) := do
  let window ← buf[pos]?
  let length ← buf[pos + 1]?
  some (length.toNat, bitmapTypes window.toNat)

def decodeTypeBitmap (buf : Bytes) (stop pos : Nat) : Option (List Int) := do
  some (← readChunks 1 windowHeader buf stop pos).flatten

def appendParams : List (Int × Bytes) → Bytes → Option Bytes
  | [], out => some out
  | (key, value) :: params, out => do
    appendParams params (out ++ (← packUints [(2, key), (2, value.length)]) ++ value)

def paramHeader (buf : Bytes) (pos : Nat) : Option (Nat × (Bytes → Int × Bytes)) := do
  match ← unpackUints [2, 2] buf pos with
  | ([key, length], _) => some (length.toNat, fun value => (key, value))
  | _ => none

/-- The loop of `HTTPS.unpack`. -/
def readParams (buf : Bytes) (stop pos : Nat) : Option (List (Int × Bytes)) :=
  readChunks 3 paramHeader buf stop pos

/-- A `Struct` of unsigned fields and greedy bytes. -/
def unpackGreedy (ws : List Nat) (raw : Bytes) : Option (List Int × Bytes) := do
  let (vs, off) ← unpackUints ws raw 0
  some (vs, raw.drop off)

/-- `data.pack()` of a `Struct`, `data.pack_into(out, ctx)` of the other classes. -/
def packRData (data : RData) (out : Bytes) (ctx : Option Table) : Option Out :=
  match data with
  | .a address => do some (out ++ (← packUint 4 address), ctx)
  | .aaaa address => if address.length = 16 then some (out ++ address, ctx) else none
  | .ns target | .cname target | .ptr target | .dname target => packName target out ctx
  | .mx preference exchange => do packName exchange (out ++ (← packUint 2 preference)) ctx
  | .soa mname rname serial refresh retry expire minimum => do
    let (out, ctx) ← packName mname out ctx
    let (out, ctx) ← packName rname out ctx
    some (out ++ (← packUints [(4, serial), (4, refresh), (4, retry), (4, expire), (4, minimum)]), ctx)
  | .srv priority weight port target => do
    some (← packPlainName target (out ++ (← packUints [(2, priority), (2, weight), (2, port)])), ctx)
  | .naptr order preference flags service regexp replacement => do
    let out := out ++ (← packUints [(2, order), (2, preference)])
    let out ← writeCharString out flags
    let out ← writeCharString out service
    let out ← writeCharString out regexp
    packName replacement out ctx
  | .ds keyTag algorithm digestType digest => do
    some (out ++ (← packUints [(2, keyTag), (1, algorithm), (1, digestType)]) ++ digest, ctx)
  | .dnskey flags protocol algorithm key => do
    some (out ++ (← packUints [(2, flags), (1, protocol), (1, algorithm)]) ++ key, ctx)
  | .rrsig typeCovered algorithm labels originalTtl expiration inception keyTag signer signature => do
    let fixed ← packUints [(2, typeCovered), (1, algorithm), (1, labels), (4, originalTtl),
      (4, expiration), (4, inception), (2, keyTag)]
    some ((← packPlainName signer (out ++ fixed)) ++ signature, ctx)
  | .nsec nextDomain rrtypes => do
    some ((← packPlainName nextDomain out) ++ (← encodeTypeBitmap rrtypes), ctx)
  | .caa flags tag value => do
    let tag ← encode tag .ascii
    some (out ++ (← packUints [(1, flags), (1, tag.length)]) ++ tag ++ (← encode value .utf8), ctx)
  | .https priority target params => do
    let out ← packPlainName target (out ++ (← packUint 2 priority))
    some (← appendParams params out, ctx)
  | .loc version size hPrecision vPrecision latitude longitude altitude => do
    some (out ++ (← packUints [(1, version), (1, size), (1, hPrecision), (1, vPrecision),
      (4, latitude), (4, longitude), (4, altitude)]), ctx)
  | .rp mbox txt => do
    let (out, ctx) ← packName mbox out ctx
    packName txt out ctx
  | .tlsa usage selector matchingType certData => do
    some (out ++ (← packUints [(1, usage), (1, selector), (1, matchingType)]) ++ certData, ctx)
  | .sshfp algorithm fpType fingerprint => do
    some (out ++ (← packUints [(1, algorithm), (1, fpType)]) ++ fingerprint, ctx)
  | .txt strings => do some (← appendStrings strings out, ctx)
  | .unknown d => some (out ++ d.data, ctx)

/-- `cls.unpack(buf, off, length, ctx)`, or `cls.unpack(raw)` of a `Struct`. -/
def RDataKind.unpack (kind : RDataKind) (buf : Bytes) (off length : Nat) : Option RData :=
  let raw := pySlice buf off (off + length)
  match kind with
  | .a => do
    match ← unpackUints [4] raw 0 with
    | ([address], pos) => if pos = raw.length then some (.a address) else none
    | _ => none
  | .aaaa => if raw.length = 16 then some (.aaaa raw) else none
  | .ns => do some (.ns (← decodeName buf off).1)
  | .cname => do some (.cname (← decodeName buf off).1)
  | .ptr => do some (.ptr (← decodeName buf off).1)
  | .dname => do some (.dname (← decodeName buf off).1)
  | .mx => do
    let (preference, pos) ← unpackUint 2 buf off
    some (.mx preference (← decodeName buf pos).1)
  | .soa => do
    let (mname, off) ← decodeName buf off
    let (rname, off) ← decodeName buf off
    match ← unpackUints [4, 4, 4, 4, 4] buf off with
    | ([serial, refresh, retry, expire, minimum], _) =>
      some (.soa mname rname serial refresh retry expire minimum)
    | _ => none
  | .srv => do
    match ← unpackUints [2, 2, 2] buf off with
    | ([priority, weight, port], pos) => some (.srv priority weight port (← decodeName buf pos).1)
    | _ => none
  | .naptr => do
    match ← unpackUints [2, 2] buf off with
    | ([order, preference], pos) =>
      let (flags, pos) ← readCharString buf pos
      let (service, pos) ← readCharString buf pos
      let (regexp, pos) ← readCharString buf pos
      some (.naptr order preference flags service regexp (← decodeName buf pos).1)
    | _ => none
  | .ds => do
    match ← unpackGreedy [2, 1, 1] raw with
    | ([keyTag, algorithm, digestType], digest) => some (.ds keyTag algorithm digestType digest)
    | _ => none
  | .dnskey => do
    match ← unpackGreedy [2, 1, 1] raw with
    | ([flags, protocol, algorithm], key) => some (.dnskey flags protocol algorithm key)
    | _ => none
  | .rrsig => do
    match ← unpackUints [2, 1, 1, 4, 4, 4, 2] buf off with
    | ([typeCovered, algorithm, labels, originalTtl, expiration, inception, keyTag], pos) =>
      let (signer, pos) ← decodeName buf pos
      some (.rrsig typeCovered algorithm labels originalTtl expiration inception keyTag signer
        (pySlice buf pos (off + length)))
    | _ => none
  | .nsec => do
    let (nextDomain, pos) ← decodeName buf off
    some (.nsec nextDomain (← decodeTypeBitmap buf (off + length) pos))
  | .caa => do
    match ← unpackUints [1, 1] raw 0 with
    | ([flags, tagLength], pos) =>
      if pos + tagLength.toNat ≤ raw.length then
        let tag ← decode (pySlice raw pos (pos + tagLength.toNat)) .ascii
        some (.caa flags tag (← decode (raw.drop (pos + tagLength.toNat)) .utf8))
      else none
    | _ => none
  | .https => do
    let (priority, pos) ← unpackUint 2 buf off
    let (target, pos) ← decodeName buf pos
    some (.https priority target (← readParams buf (off + length) pos))
  | .loc => do
    match ← unpackUints [1, 1, 1, 1, 4, 4, 4] raw 0 with
    | ([version, size, hPrecision, vPrecision, latitude, longitude, altitude], pos) =>
      if pos = raw.length then
        some (.loc version size hPrecision vPrecision latitude longitude altitude)
      else none
    | _ => none
  | .rp => do
    let (mbox, pos) ← decodeName buf off
    some (.rp mbox (← decodeName buf pos).1)
  | .tlsa => do
    match ← unpackGreedy [1, 1, 1] raw with
    | ([usage, selector, matchingType], certData) => some (.tlsa usage selector matchingType certData)
    | _ => none
  | .sshfp => do
    match ← unpackGreedy [1, 1] raw with
    | ([algorithm, fpType], fingerprint) => some (.sshfp algorithm fpType fingerprint)
    | _ => none
  | .txt => do some (.txt (← readStrings buf (off + length) off))

def unpackRData (rtype : Int) (buf : Bytes) (off length : Nat) : Option RData :=
  match h : RDataKind.ofRType rtype with
  | none => some (.unknown { rtype, data := pySlice buf off (off + length), unregistered := h })
  | some kind => kind.unpack buf off length

structure Question where
  name : String
  qtype : Int
  qclass : Int
  deriving DecidableEq

namespace Question

def packInto (q : Question) (out : Bytes) (ctx : Option Table) : Option Out := do
  let (out, ctx) ← packName q.name out ctx
  some (out ++ (← packUints [(2, q.qtype), (2, q.qclass)]), ctx)

def unpack (buf : Bytes) (off : Nat) : Option (Question × Nat) := do
  let (name, off) ← decodeName buf off
  match ← unpackUints [2, 2] buf off with
  | ([qtype, qclass], pos) => some ({ name, qtype, qclass }, pos)
  | _ => none

end Question

structure ResourceRecord where
  name : String
  rclass : Int
  ttl : Int
  data : RData
  deriving DecidableEq

/-- TYPE, CLASS, TTL and RDLENGTH. -/
def packRecordHeader (rtype rclass ttl rdlength : Int) : Option Bytes :=
  packUints [(2, rtype), (2, rclass), (4, ttl), (2, rdlength)]

namespace ResourceRecord

/-- The header is written with a length of 0, and again once the RDATA is there. -/
def packInto (r : ResourceRecord) (out : Bytes) (ctx : Option Table) : Option Out := do
  let (out, ctx) ← packName r.name out ctx
  let rtype := r.data.rtype
  let rdlenPos := out.length
  let out := out ++ (← packRecordHeader rtype r.rclass r.ttl 0)
  let bodyStart := out.length
  let (out, ctx) ← packRData r.data out ctx
  let rdlength := out.length - bodyStart
  let header ← packRecordHeader rtype r.rclass r.ttl rdlength
  some (out.take rdlenPos ++ header ++ out.drop bodyStart, ctx)

def unpack (buf : Bytes) (off : Nat) : Option (ResourceRecord × Nat) := do
  let (name, off) ← decodeName buf off
  match ← unpackUints [2, 2, 4, 2] buf off with
  | ([rtype, rclass, ttl, rdlength], off) =>
    let data ← unpackRData rtype buf off rdlength.toNat
    some ({ name, rclass, ttl, data }, off + rdlength.toNat)
  | _ => none

end ResourceRecord

/-- A flag is a bit: 0 or 1. -/
structure DNSFlags where
  qr : Int
  opcode : Int
  aa : Int
  tc : Int
  rd : Int
  ra : Int
  z : Int
  rcode : Int
  deriving DecidableEq

/-- Bit fields, the highest first, after those of `acc`. -/
def packBits : List (Nat × Int) → Nat → Option Nat
  | [], acc => some acc
  | (w, v) :: fields, acc =>
    if 0 ≤ v ∧ v < 2 ^ w then packBits fields (acc * 2 ^ w + v.toNat) else none

def unpackBits : List Nat → Nat → List Int
  | [], _ => []
  | w :: ws, n => (n / 2 ^ ws.sum % 2 ^ w : Nat) :: unpackBits ws n

namespace DNSFlags

def pack (f : DNSFlags) : Option Bytes := do
  let word ← packBits [(1, f.qr), (4, f.opcode), (1, f.aa), (1, f.tc), (1, f.rd), (1, f.ra), (3, f.z),
    (4, f.rcode)] 0
  some (uintBytes 2 true word)

def unpackFrom (buf : Bytes) (off : Nat) : Option (DNSFlags × Nat) := do
  let (word, off) ← unpackUint 2 buf off
  match unpackBits [1, 4, 1, 1, 1, 1, 3, 4] word.toNat with
  | [qr, opcode, aa, tc, rd, ra, z, rcode] => some ({ qr, opcode, aa, tc, rd, ra, z, rcode }, off)
  | _ => none

end DNSFlags

structure MessageHeader where
  id : Int
  flags : DNSFlags
  qdcount : Int
  ancount : Int
  nscount : Int
  arcount : Int
  deriving DecidableEq

namespace MessageHeader

def pack (h : MessageHeader) : Option Bytes := do
  some ((← packUint 2 h.id) ++ (← h.flags.pack) ++
    (← packUints [(2, h.qdcount), (2, h.ancount), (2, h.nscount), (2, h.arcount)]))

def unpackFrom (buf : Bytes) (off : Nat) : Option (MessageHeader × Nat) := do
  let (id, off) ← unpackUint 2 buf off
  let (flags, off) ← DNSFlags.unpackFrom buf off
  match ← unpackUints [2, 2, 2, 2] buf off with
  | ([qdcount, ancount, nscount, arcount], off) =>
    some ({ id, flags, qdcount, ancount, nscount, arcount }, off)
  | _ => none

end MessageHeader

end Rustruct.DNS

namespace Rustruct

/-- A whole DNS message. -/
structure DNS where
  id : Int
  flags : DNS.DNSFlags
  questions : List DNS.Question
  answers : List DNS.ResourceRecord
  authorities : List DNS.ResourceRecord
  additionals : List DNS.ResourceRecord
  deriving DecidableEq

namespace DNS

/-- `for x in xs: x.pack_into(out, ctx)` -/
def packEach {α : Type} (packInto : α → Bytes → Option Table → Option Out) :
    List α → Bytes → Option Table → Option Out
  | [], out, ctx => some (out, ctx)
  | x :: xs, out, ctx => do
    let (out, ctx) ← packInto x out ctx
    packEach packInto xs out ctx

/-- The message and the compression table it leaves. -/
def packInto (m : DNS) (compress : Bool) : Option Out := do
  let out ← MessageHeader.pack ⟨m.id, m.flags, m.questions.length, m.answers.length,
    m.authorities.length, m.additionals.length⟩
  let (out, ctx) ← packEach Question.packInto m.questions out (if compress then some [] else none)
  let (out, ctx) ← packEach ResourceRecord.packInto m.answers out ctx
  let (out, ctx) ← packEach ResourceRecord.packInto m.authorities out ctx
  packEach ResourceRecord.packInto m.additionals out ctx

def pack (m : DNS) (compress : Bool) : Option Bytes := (m.packInto compress).map Prod.fst

def readN {α : Type} (reader : Bytes → Nat → Option (α × Nat)) (buf : Bytes) :
    Nat → Nat → Option (List α × Nat)
  | 0, off => some ([], off)
  | n + 1, off => do
    let (item, off) ← reader buf off
    let (items, off) ← readN reader buf n off
    some (item :: items, off)

def unpack (buf : Bytes) : Option DNS := do
  let (header, off) ← MessageHeader.unpackFrom buf 0
  let (questions, off) ← readN Question.unpack buf header.qdcount.toNat off
  let (answers, off) ← readN ResourceRecord.unpack buf header.ancount.toNat off
  let (authorities, off) ← readN ResourceRecord.unpack buf header.nscount.toNat off
  let (additionals, _) ← readN ResourceRecord.unpack buf header.arcount.toNat off
  some { id := header.id, flags := header.flags, questions, answers, authorities, additionals }

end DNS

end Rustruct

/-
The client's address behind trusted proxies.

`client_ip` walks the `X-Forwarded-For` chain from the right as long as the hop it
has reached is a trusted proxy.  The functions of `ipaddress` are a parameter, of
which only the round trip of `str` is relied on.
-/
import AdaptiveGateway.Codec.Decimal
import AdaptiveGateway.Codec.Dict
import AdaptiveGateway.Codec.Text

namespace AdaptiveGateway

namespace ClientIdentity

open Codec

/-- The module `ipaddress`. -/
structure IpAddress where
  Address : Type
  Network : Type
  /-- `ip_address`, `none` for `ValueError`. -/
  parse : Text → Option Address
  str : Address → Text
  /-- `address in net`. -/
  contains : Network → Address → Bool
  parse_str : ∀ a, parse (str a) = some a

variable (ip : IpAddress)

def trusted (networks : List ip.Network) (value : Text) : Bool :=
  match ip.parse value with
  | some address => networks.any fun net => ip.contains net address
  | none => false

/-- The loop over the reversed chain. -/
def walk (networks : List ip.Network) (peer current : Text) : List Text → Text
  | [] => current
  | hop :: hops =>
    if trusted ip networks current then
      match ip.parse (strip hop) with
      | some address => walk networks peer (ip.str address) hops
      | none => peer
    else current

/-- `client_ip`.  `client` is `request.client.host`, and `headers` are the field lines
of the request, of which `headers.get` reads the first of a name. -/
def clientIp (networks : List ip.Network) (client : Option Text) (headers : List (Text × Text)) :
    Text :=
  let peer := client.getD "unknown"
  if trusted ip networks peer then
    let chain := splitOn ',' ((Dict.lookup "x-forwarded-for".toList headers).getD [])
    if chain.length > 32 then peer
    else walk ip networks peer peer chain.reverse
  else peer

/-! ## The field as a list -/

/-- The hops of all lines joined with commas. -/
def combinedChain (headers : List (Text × Text)) : List Text :=
  splitOn ',' (List.intercalate [','] (Dict.values "x-forwarded-for".toList headers))

/-- With at most one line the chain that is read is the whole one. -/
theorem combinedChain_eq {headers : List (Text × Text)}
    (h : (Dict.values "x-forwarded-for".toList headers).length ≤ 1) :
    combinedChain headers = splitOn ',' ((Dict.lookup "x-forwarded-for".toList headers).getD []) := by
  rw [combinedChain, Dict.lookup_eq_head?]
  match hl : Dict.values "x-forwarded-for".toList headers with
  | [] => rfl
  | [v] => rw [List.intercalate_singleton]; rfl
  | _ :: _ :: _ =>
    rw [hl] at h
    exact absurd h (by simp)

/-! ## The walk -/

section Walk

variable {ip} {networks : List ip.Network}

theorem trusted_str (a : ip.Address) :
    trusted ip networks (ip.str a) = networks.any fun net => ip.contains net a := by
  rw [trusted, ip.parse_str]

/-- A hop that is a trusted proxy. -/
def TrustedHop (ip : IpAddress) (networks : List ip.Network) (hop : Text) : Prop :=
  ∃ a, ip.parse (strip hop) = some a ∧ networks.any (fun net => ip.contains net a) = true

/-- A hop that is an address and not a trusted proxy. -/
structure UntrustedHop (ip : IpAddress) (networks : List ip.Network) (hop : Text)
    (a : ip.Address) : Prop where
  parse : ip.parse (strip hop) = some a
  outside : networks.any (fun net => ip.contains net a) = false

/-- The walk passes over trusted hops and comes to rest at one. -/
theorem exists_walk_past (peer : Text) : ∀ (right : List Text) (current : Text),
    trusted ip networks current = true → (∀ h ∈ right, TrustedHop ip networks h) →
    ∃ last, trusted ip networks last = true ∧
      ∀ left, walk ip networks peer current (right ++ left) = walk ip networks peer last left := by
  intro right
  induction right with
  | nil => exact fun current hcur _ => ⟨current, hcur, fun _ => rfl⟩
  | cons h right ih =>
    intro current hcur hright
    obtain ⟨a, ha, hin⟩ := hright h List.mem_cons_self
    obtain ⟨last, hlast, hwalk⟩ := ih (ip.str a) (by rw [trusted_str]; exact hin)
      fun h' hh' => hright h' (List.mem_cons_of_mem h hh')
    refine ⟨last, hlast, fun left => ?_⟩
    rw [List.cons_append, walk, if_pos hcur, ha]
    exact hwalk left

/-- From a trusted proxy the walk passes over trusted hops, stops at the first other
one, and never looks behind it. -/
theorem walk_eq {peer : Text} {hop : Text} {a : ip.Address} (hhop : UntrustedHop ip networks hop a)
    (left : List Text) (right : List Text) (current : Text)
    (hcur : trusted ip networks current = true) (hright : ∀ h ∈ right, TrustedHop ip networks h) :
    walk ip networks peer current (right ++ hop :: left) = ip.str a := by
  obtain ⟨last, hlast, hwalk⟩ := exists_walk_past peer right current hcur hright
  rw [hwalk, walk, if_pos hlast, hhop.parse]
  show walk ip networks peer (ip.str a) left = ip.str a
  cases left with
  | nil => rfl
  | cons h hs =>
    rw [walk, trusted_str, hhop.outside]
    rfl

/-- A hop that does not parse ends the walk at the peer. -/
theorem walk_malformed {peer : Text} {hop : Text} (hhop : ip.parse (strip hop) = none)
    (left : List Text) (right : List Text) (current : Text)
    (hcur : trusted ip networks current = true) (hright : ∀ h ∈ right, TrustedHop ip networks h) :
    walk ip networks peer current (right ++ hop :: left) = peer := by
  obtain ⟨last, hlast, hwalk⟩ := exists_walk_past peer right current hcur hright
  rw [hwalk, walk, if_pos hlast, hhop]

/-- Where nothing is left of a hop, the walk ends there. -/
theorem walk_leftmost {peer : Text} {hop : Text} {a : ip.Address}
    (hhop : ip.parse (strip hop) = some a) (right : List Text) (current : Text)
    (hcur : trusted ip networks current = true) (hright : ∀ h ∈ right, TrustedHop ip networks h) :
    walk ip networks peer current (right ++ [hop]) = ip.str a := by
  obtain ⟨last, hlast, hwalk⟩ := exists_walk_past peer right current hcur hright
  rw [hwalk, walk, if_pos hlast, hhop]
  rfl

end Walk

/-- Behind a trusted peer, and with at most one field line of at most 32 hops, the
client is the first untrusted hop from the right, whatever stands to its left.  With
more hops it is the peer. -/
theorem clientIp_eq_rightmost_untrusted (ip : IpAddress) (networks : List ip.Network)
    (peer : Text) (hpeer : trusted ip networks peer = true) (headers : List (Text × Text))
    (hone : (Dict.values "x-forwarded-for".toList headers).length ≤ 1) (left right : List Text)
    (hop : Text) (hchain : combinedChain headers = left ++ hop :: right)
    (hright : ∀ h ∈ right, TrustedHop ip networks h) (a : ip.Address)
    (hhop : UntrustedHop ip networks hop a) :
    clientIp ip networks (some peer) headers =
      if (combinedChain headers).length ≤ 32 then ip.str a else peer := by
  have hread := combinedChain_eq hone
  simp only [clientIp, Option.getD_some, if_pos hpeer, ← hread]
  by_cases hlen : (combinedChain headers).length ≤ 32
  · rw [if_neg (by omega), if_pos hlen, hchain, List.reverse_append, List.reverse_cons,
      List.append_assoc]
    exact walk_eq hhop left.reverse right.reverse peer hpeer
      fun h hh => hright h (List.mem_reverse.mp hh)
  · rw [if_pos (by omega), if_neg hlen]

/-! ## IPv4 -/

abbrev Octets := Fin 256 × Fin 256 × Fin 256 × Fin 256

def octetText (b : Fin 256) : Text := Nat.toDigits 10 b

/-- One to three digits without a leading zero. -/
def parseOctet (t : Text) : Option (Fin 256) :=
  let n := Nat.ofDigitChars 10 t 0
  if h : n < 256 then if octetText ⟨n, h⟩ = t then some ⟨n, h⟩ else none else none

def parseOctets (t : Text) : Option Octets :=
  match splitOn '.' t with
  | [a, b, c, d] =>
    match parseOctet a, parseOctet b, parseOctet c, parseOctet d with
    | some a, some b, some c, some d => some (a, b, c, d)
    | _, _, _, _ => none
  | _ => none

def octetsText : Octets → Text
  | (a, b, c, d) =>
    octetText a ++ '.' :: (octetText b ++ '.' :: (octetText c ++ '.' :: octetText d))

theorem parseOctet_octetText (b : Fin 256) : parseOctet (octetText b) = some b := by
  have h : Nat.ofDigitChars 10 (octetText b) 0 = b := Nat.ofDigitChars_ten_toDigits
  simp only [parseOctet, h]
  rw [dif_pos b.isLt, if_pos trivial]

theorem dot_not_mem_octetText (b : Fin 256) : '.' ∉ octetText b := by
  intro h
  exact absurd (Json.isDigit_toDigits b '.' h) (by decide)

theorem parseOctets_octetsText (x : Octets) : parseOctets (octetsText x) = some x := by
  obtain ⟨a, b, c, d⟩ := x
  rw [parseOctets, octetsText, splitOn_append (dot_not_mem_octetText a),
    splitOn_append (dot_not_mem_octetText b), splitOn_append (dot_not_mem_octetText c),
    splitOn_of_not_mem (dot_not_mem_octetText d)]
  simp only [parseOctet_octetText]

/-- `ipaddress` on IPv4 addresses, with the networks whose length is a multiple of
eight as the octets they fix. -/
def ipv4 : IpAddress where
  Address := Octets
  Network := List (Fin 256)
  parse := parseOctets
  str := octetsText
  contains net a := net.isPrefixOf [a.1, a.2.1, a.2.2.1, a.2.2.2]
  parse_str := parseOctets_octetsText

instance : DecidableEq ipv4.Address := inferInstanceAs (DecidableEq Octets)

/-- `10.0.0.0/8`, as in the tests. -/
def privateNetworks : List ipv4.Network := [[10]]

theorem clientIp_eq_rightmost_untrusted_private :
    clientIp ipv4 privateNetworks (some "10.0.0.1")
        [("x-forwarded-for".toList, "junk, 203.0.113.9,10.0.0.2".toList)] =
      "203.0.113.9".toList := by
  have hright : ∀ h ∈ ["10.0.0.2".toList], TrustedHop ipv4 privateNetworks h := by
    intro h hh
    rw [List.mem_singleton.mp hh]
    exact ⟨((10, 0, 0, 2) : Octets), by decide +kernel, by decide⟩
  have h := clientIp_eq_rightmost_untrusted ipv4 privateNetworks "10.0.0.1" (by decide +kernel)
    [("x-forwarded-for".toList, "junk, 203.0.113.9,10.0.0.2".toList)] (by decide +kernel)
    ["junk".toList] ["10.0.0.2".toList] " 203.0.113.9" (by decide +kernel) hright
    ((203, 0, 113, 9) : Octets) ⟨by decide +kernel, by decide⟩
  rw [h, if_pos (by decide +kernel)]
  decide +kernel

/-- Thirty-two hops of the client's own choosing in front of its address. -/
def longChain : List Text := List.replicate 32 "1.1.1.1".toList ++ ["203.0.113.9".toList]

/-- Enough text on the left turns the client into the peer. -/
theorem clientIp_influenced_from_left :
    ¬∀ (ip : IpAddress) (networks : List ip.Network) (peer : Text)
      (_ : trusted ip networks peer = true) (headers : List (Text × Text))
      (left right : List Text) (hop : Text) (_ : combinedChain headers = left ++ hop :: right)
      (_ : ∀ h ∈ right, TrustedHop ip networks h) (a : ip.Address)
      (_ : UntrustedHop ip networks hop a),
      clientIp ip networks (some peer) headers = ip.str a := by
  intro h
  have h := h ipv4 privateNetworks "10.0.0.1" (by decide +kernel)
    [("x-forwarded-for".toList, List.intercalate [','] longChain)]
    (List.replicate 32 "1.1.1.1".toList) [] "203.0.113.9" (by decide +kernel) (by simp)
    ((203, 0, 113, 9) : Octets) ⟨by decide +kernel, by decide⟩
  exact absurd h (by decide +kernel)

/-! ## The whole walk -/

/-- Who the client behind `peer` is.  The hops of `chain` that are to the right of the one that
decides are all trusted proxies. -/
inductive Identifies (ip : IpAddress) (networks : List ip.Network) (peer : Text)
    (chain : List Text) : Text → Prop
  | direct (hpeer : trusted ip networks peer = false) : Identifies ip networks peer chain peer
  | untrusted {left right : List Text} {hop : Text} {a : ip.Address}
      (hpeer : trusted ip networks peer = true) (hchain : chain = left ++ hop :: right)
      (hright : ∀ h ∈ right, TrustedHop ip networks h) (hhop : UntrustedHop ip networks hop a) :
      Identifies ip networks peer chain (ip.str a)
  | leftmost {right : List Text} {hop : Text} {a : ip.Address}
      (hpeer : trusted ip networks peer = true) (hchain : chain = hop :: right)
      (hall : ∀ h ∈ chain, TrustedHop ip networks h) (hhop : ip.parse (strip hop) = some a) :
      Identifies ip networks peer chain (ip.str a)
  | malformed {left right : List Text} {hop : Text}
      (hpeer : trusted ip networks peer = true) (hchain : chain = left ++ hop :: right)
      (hright : ∀ h ∈ right, TrustedHop ip networks h) (hhop : ip.parse (strip hop) = none) :
      Identifies ip networks peer chain peer

section Identifies

variable {ip : IpAddress} {networks : List ip.Network} {peer : Text}

/-- Either every hop is a trusted proxy, or there is a rightmost one that is not. -/
theorem trusted_or_rightmost (networks : List ip.Network) (chain : List Text) :
    (∀ h ∈ chain, TrustedHop ip networks h) ∨
      ∃ left hop right, chain = left ++ hop :: right ∧
        (∀ h ∈ right, TrustedHop ip networks h) ∧ ¬TrustedHop ip networks hop := by
  induction chain with
  | nil => exact .inl fun h hh => absurd hh List.not_mem_nil
  | cons hop chain ih =>
    rcases ih with hall | ⟨left, hop', right, rfl, hright, hhop'⟩
    · by_cases hhop : TrustedHop ip networks hop
      · exact .inl (List.forall_mem_cons.mpr ⟨hhop, hall⟩)
      · exact .inr ⟨[], hop, chain, rfl, hall, hhop⟩
    · exact .inr ⟨hop :: left, hop', right, rfl, hright, hhop'⟩

theorem malformed_or_untrusted {hop : Text} (h : ¬TrustedHop ip networks hop) :
    ip.parse (strip hop) = none ∨ ∃ a, UntrustedHop ip networks hop a := by
  cases hparse : ip.parse (strip hop) with
  | none => exact .inl rfl
  | some a =>
    exact .inr ⟨a, hparse, Bool.eq_false_iff.mpr fun hin => h ⟨a, hparse, hin⟩⟩

/-- Some case of the specification applies to every chain. -/
theorem exists_identifies (networks : List ip.Network) (peer : Text) {chain : List Text}
    (hchain : chain ≠ []) : ∃ r, Identifies ip networks peer chain r := by
  cases hpeer : trusted ip networks peer with
  | false => exact ⟨peer, .direct hpeer⟩
  | true =>
    rcases trusted_or_rightmost networks chain with hall | ⟨left, hop, right, rfl, hright, hhop⟩
    · obtain ⟨hop, right, rfl⟩ := List.exists_cons_of_ne_nil hchain
      obtain ⟨a, ha, -⟩ := hall hop List.mem_cons_self
      exact ⟨ip.str a, .leftmost hpeer rfl hall ha⟩
    · rcases malformed_or_untrusted hhop with hnone | ⟨a, ha⟩
      · exact ⟨peer, .malformed hpeer rfl hright hnone⟩
      · exact ⟨ip.str a, .untrusted hpeer rfl hright ha⟩

/-- The loop returns what any case says that applies. -/
theorem walk_of_identifies {chain : List Text} {r : Text}
    (h : Identifies ip networks peer chain r) :
    (if trusted ip networks peer then walk ip networks peer peer chain.reverse else peer) = r := by
  cases h with
  | direct hpeer =>
    rw [hpeer]
    exact if_neg Bool.false_ne_true
  | @untrusted left right hop a hpeer hchain hright hhop =>
    rw [if_pos hpeer, hchain, List.reverse_append, List.reverse_cons, List.append_assoc]
    exact walk_eq hhop left.reverse right.reverse peer hpeer
      fun h hh => hright h (List.mem_reverse.mp hh)
  | @leftmost right hop a hpeer hchain hall hhop =>
    rw [if_pos hpeer, hchain, List.reverse_cons]
    refine walk_leftmost hhop right.reverse peer hpeer fun h hh => hall h ?_
    rw [hchain]
    exact List.mem_cons_of_mem hop (List.mem_reverse.mp hh)
  | @malformed left right hop hpeer hchain hright hhop =>
    rw [if_pos hpeer, hchain, List.reverse_append, List.reverse_cons, List.append_assoc]
    exact walk_malformed hhop left.reverse right.reverse peer hpeer
      fun h hh => hright h (List.mem_reverse.mp hh)

end Identifies

/-- With one `X-Forwarded-For` value of at most 32 hops, `client_ip` returns just what the
specification says, which therefore leaves no choice. -/
theorem clientIp_eq_iff (ip : IpAddress) (networks : List ip.Network) (client : Option Text)
    (headers : List (Text × Text)) {value : Text}
    (hvalue : Dict.values "x-forwarded-for".toList headers = [value])
    (hlen : (splitOn ',' value).length ≤ 32) (r : Text) :
    clientIp ip networks client headers = r ↔
      Identifies ip networks (client.getD "unknown") (splitOn ',' value) r := by
  have hlookup : Dict.lookup "x-forwarded-for".toList headers = some value := by
    rw [Dict.lookup_eq_head?, hvalue]
    rfl
  have hclient : clientIp ip networks client headers =
      if trusted ip networks (client.getD "unknown") then
        walk ip networks (client.getD "unknown") (client.getD "unknown") (splitOn ',' value).reverse
      else client.getD "unknown" := by
    simp only [clientIp, hlookup, Option.getD_some]
    rw [if_neg (Nat.not_lt.mpr hlen)]
  rw [hclient]
  constructor
  · rintro rfl
    obtain ⟨r, hr⟩ := exists_identifies networks (client.getD "unknown") (splitOn_ne_nil ',' value)
    rwa [walk_of_identifies hr]
  · exact walk_of_identifies

/-- The malformed hop is behind a trusted one. -/
theorem clientIp_eq_iff_private :
    Identifies ipv4 privateNetworks "10.0.0.1"
      (splitOn ',' "203.0.113.9, junk,10.0.0.2".toList) "10.0.0.1".toList :=
  (clientIp_eq_iff ipv4 privateNetworks (some "10.0.0.1")
    [("x-forwarded-for".toList, "203.0.113.9, junk,10.0.0.2".toList)] (by decide +kernel)
    (by decide +kernel) "10.0.0.1").mp (by decide +kernel)

end ClientIdentity

end AdaptiveGateway

/-
`main` of `chord-node/webserver.c`, up to its sockets: how a node gets its configuration.

The own address and id come from the command line, the neighbours from the environment.  A
neighbour is taken only if all three of its variables are set.  `safe_strtoul` puts an
unsigned long into 16 bits and looks at `errno` alone, so that a number ends the program only
if it is too large for an unsigned long; everything else becomes some id.

`launch_ring` says that every ring can be started: the decimal and dotted texts of a node's
configuration give back exactly that configuration.
-/
import ChordDht.Chord.Ring

namespace ChordDht.Chord

open Arc

/-- `strtoul` sets `errno`: the digits are too large a number for an unsigned long. -/
def strtoulOverflows (s : Bytes) : Bool :=
  let t := s.dropWhile isSpace
  let u := if t.headD 0 == 45 || t.headD 0 == 43 then t.tail else t
  decide (2 ^ 64 ≤ digitsValue (u.takeWhile isDigit))

/-- `safe_strtoul(nptr, endptr, 10, message)`. -/
def safeStrtoul (nptr : Bytes) : Outcome UInt16 :=
  if strtoulOverflows nptr then .exits else .returns (UInt16.ofNat (strtoul nptr))

/-- What `getenv` finds. -/
structure Environment where
  predId : Option Bytes
  predIp : Option Bytes
  predPort : Option Bytes
  succId : Option Bytes
  succIp : Option Bytes
  succPort : Option Bytes
  deriving DecidableEq, Repr

/-- A neighbour from its three variables; it stays all zero if one of them is missing. -/
def neighbour (id ip port : Option Bytes) : Outcome ChordPeer :=
  match id, ip, port with
  | some id, some ip, some port => do
      let peerId ← safeStrtoul id
      let peerPort ← safeStrtoul port
      return ⟨peerId, strncpy ip (inetAddrStrLen - 1), peerPort⟩
  | _, _, _ => .returns ⟨0, [], 0⟩

/-- The own id, from what follows the address and the port; 0 if it is left out or empty. -/
def ownId (rest : List Bytes) : Outcome UInt16 :=
  match rest with
  | [] => .returns 0
  | id :: _ => if id = [] then .returns 0 else safeStrtoul id

/-- The global state `main` sets up from `argv` and the environment. -/
def launch (argv : List Bytes) (env : Environment) : Outcome Node :=
  match argv with
  | _ :: ip :: port :: rest => do
      let selfId ← ownId rest
      let selfPort ← safeStrtoul port
      let predecessor ← neighbour env.predId env.predIp env.predPort
      let successor ← neighbour env.succId env.succIp env.succPort
      return {
        selfId := selfId
        successor := successor
        predecessor := predecessor
        selfIp := strncpy ip (inetAddrStrLen - 1)
        selfPort := selfPort
        haveReply := false
        replyPeer := ⟨0, [], 0⟩
        replyPrevId := 0
        resources := initialResources }
  | _ => .exits

/-! ### Starting the nodes of a ring -/

/-- A 16-bit number comes back from its text. -/
theorem safeStrtoul_decimal (w : UInt16) : safeStrtoul (decimal w.toNat) = .returns w := by
  have hdigits := isDigit_of_mem_decimal w.toNat
  have hlt := UInt16.toNat_lt w
  have hvalue := digitsValue_decimal w.toNat
  have hread := @strtoul_digits [] (decimal w.toNat) [] (fun b hb => absurd hb List.not_mem_nil)
    (decimal_ne_nil _) hdigits (by decide) (by rw [hvalue]; omega)
  obtain ⟨hdrop, hminus, hplus⟩ := @read_digits [] (decimal w.toNat) []
    (fun b hb => absurd hb List.not_mem_nil) (decimal_ne_nil _) hdigits
  have htake := @takeWhile_digits (decimal w.toNat) [] hdigits (by decide)
  rw [List.nil_append, List.append_nil] at hread hdrop
  rw [List.append_nil] at hminus hplus htake
  have hfits : strtoulOverflows (decimal w.toNat) = false := by
    simp only [strtoulOverflows, hdrop, beq_iff_eq, hminus, hplus, Bool.or_eq_true, or_self, if_false, htake,
      hvalue, decide_eq_false_iff_not]
    omega
  rw [safeStrtoul, hfits, hread, hvalue]
  simp

namespace Ring

variable (r : Ring)

/-- The command line that starts node `i`. -/
def argv (i : Fin r.size) : List Bytes :=
  [ascii "./build/webserver", inetNtop (r.addr i), decimal (r.port i).toNat, decimal (r.id i).toNat]

/-- The environment that starts node `i`. -/
def env (i : Fin r.size) : Environment where
  predId := some (decimal (r.id (prev i)).toNat)
  predIp := some (inetNtop (r.addr (prev i)))
  predPort := some (decimal (r.port (prev i)).toNat)
  succId := some (decimal (r.id (next i)).toNat)
  succIp := some (inetNtop (r.addr (next i)))
  succPort := some (decimal (r.port (next i)).toNat)

end Ring

theorem neighbour_peer (r : Ring) (j : Fin r.size) :
    neighbour (some (decimal (r.id j).toNat)) (some (inetNtop (r.addr j))) (some (decimal (r.port j).toNat))
      = .returns (r.peer j) := by
  simp only [neighbour, safeStrtoul_decimal, Outcome.returns_bind, Outcome.pure_eq, strncpy_inetNtop]
  rfl

/-- **Every node of a ring can be started**, and is then configured for its place. -/
theorem launch_ring (r : Ring) (i : Fin r.size) : launch (r.argv i) (r.env i) = .returns (r.node i) := by
  have hid : decimal (r.id i).toNat ≠ [] := decimal_ne_nil _
  simp only [launch, Ring.argv, Ring.env, ownId, if_neg hid, safeStrtoul_decimal, neighbour_peer,
    Outcome.returns_bind, Outcome.pure_eq, strncpy_inetNtop]
  rfl

/-- A node that was given no neighbours serves everything itself. -/
theorem launch_alone {argv : List Bytes} {node : Node}
    (h : launch argv ⟨none, none, none, none, none, none⟩ = .returns node) (uriHash : UInt16) :
    node.responsible uriHash = true := by
  unfold launch at h
  split at h
  · obtain ⟨selfId, -, h⟩ := Outcome.bind_eq_returns.mp h
    obtain ⟨selfPort, -, h⟩ := Outcome.bind_eq_returns.mp h
    simp only [neighbour, Outcome.returns_bind, Outcome.pure_eq, Outcome.returns.injEq] at h
    rw [← h]
    simp [Node.responsible, Node.singleNode]
  · cases h

/-- Text that is no number, and numbers that do not fit, are ids as well. -/
example : safeStrtoul (ascii "seven") = .returns 0 ∧ safeStrtoul (ascii "65537") = .returns 1 ∧
    safeStrtoul (ascii "-1") = .returns 65535 ∧ safeStrtoul (ascii "18446744073709551616") = .exits := by
  decide +kernel

end ChordDht.Chord

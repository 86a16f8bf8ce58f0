import ZondEngine.Lib.Containers
import ZondEngine.Model.Parse.Ip
import ZondEngine.Model.PortText

/-!
# Target expressions

`model/parse/target.rs`: `TargetMapBuilder` groups target expressions by their ports. `pushes_exact`: a refused
expression changes nothing, and the units have the addresses of every accepted expression on its ports and no others.
-/

namespace Zond.Parse

open List hiding set

open Zond.Ip Zond.Port Zond.Plan Zond.Text

/-! ## One expression -/

/-- Why a target expression is refused. -/
inductive TargetParseError where
  | empty
  | blank (spaces : Nat) (plural : Text)
  | unbalancedBracket (token : Text)
  | trailingText (token : Text)
  | emptyPorts (token : Text)
  | address (expression : Text) (source : IpParseError)
  | ports (expression : Text) (source : PortSetParseError)
  | noHostLookup (name : Text)
  | mistypedAddress (name : Text)
  | unbracketedAddress (name : Text)
  | unknownHost (name : Text)
  | resolvedToNothing (expression : Text)
  deriving DecidableEq

def blankOrEmpty (token : Text) : TargetParseError :=
  match token.length with
  | 0 => .empty
  | 1 => .blank 1 []
  | spaces => .blank spaces ['s']

structure TargetExpr where
  address : Text
  ports : Option Text
  deriving DecidableEq

namespace TargetExpr

def parseBracketed (token rest : Text) : Except TargetParseError TargetExpr := do
  let (address, tail) ← okOr (splitOnce ']' rest) (.unbalancedBracket token)
  if address.isEmpty then .error .empty
  else match tail with
    | [] => return ⟨address, none⟩
    | [':'] => .error (.emptyPorts token)
    | ':' :: ports => return ⟨address, some ports⟩
    | _ => .error (.trailingText token)

def dottedFirst (token : Text) : Bool :=
  match token.idxOf? '.', token.idxOf? ':' with
  | some dot, some colon => dot < colon
  | _, _ => false

/-- Splits an expression into addresses and ports. -/
def parse (token : Text) : Except TargetParseError TargetExpr :=
  match trim token with
  | [] => .error (blankOrEmpty token)
  | '[' :: rest => parseBracketed ('[' :: rest) rest
  | token =>
    let colons := token.count ':'
    if colons ≥ 1 && (dottedFirst token || colons == 1) then do
      let (address, ports) ← okOr (splitOnce ':' token) .empty
      if address.isEmpty then .error .empty
      else if ports.isEmpty then .error (.emptyPorts token)
      else return ⟨address, some ports⟩
    else return ⟨token, none⟩

def addresses (expr : TargetExpr) : List Text :=
  ((expr.address.splitOn ',').map trim).filter fun part => !part.isEmpty

end TargetExpr

example : TargetExpr.parse "192.0.2.1:u:53" = .ok ⟨"192.0.2.1", some "u:53"⟩ := by decide

example : TargetExpr.parse "2001:db8::1:80" = .ok ⟨"2001:db8::1:80", none⟩ := by decide

/-! ## Host names -/

/-- The tables of Unicode's character database behind `char::is_alphabetic` and `char::is_numeric`. -/
structure Unicode where
  (alphabetic n : Char → Bool)

namespace Unicode

variable (u : Unicode) (c : Char)

/-- The tables are asked past ASCII only. -/
def isAlphabetic : Bool := c.isAlpha || decide (c > '\x7f') && u.alphabetic c

def isNumeric : Bool := c.isDigit || decide (c > '\x7f') && u.n c

end Unicode

inductive HostName where
  | yes | unbracketed | mistyped
  deriving DecidableEq

def numericLabel (label : Text) : Bool :=
  (label.splitOn '-').all fun part => !part.isEmpty && part.all fun c => c.isDigit

variable (u : Unicode)

/-- Whether a token could name a host. -/
def hostName (token : Text) : HostName :=
  match rsplitOnce ':' token with
  | some (_, tail) => if (PortSet.tryFrom tail).isOk then .unbracketed else .mistyped
  | none =>
    let nameCharacter := fun c => u.isAlphabetic c || u.isNumeric c || c == '-' || c == '_' || c == '.'
    let labels := ((if token.getLast? = some '.' then token.dropLast else token).splitOn '.').reverse
    let lastLabel := labels.headD []
    let leading := labels.tail
    let addressShaped := leading.length ≥ 3 && leading.all numericLabel
    if token.all nameCharacter && lastLabel.any u.isAlphabetic && !addressShaped then .yes else .mistyped

abbrev HostLookup := Text → Option (List IpAddr)

structure TargetContext where
  keywords : Option ResolverFn
  zones : Option ZoneResolverFn
  hosts : Option HostLookup

/-- The addresses a host name stands for. -/
def resolveHost (name : Text) (into : IpSet) (ctx : TargetContext) : Except TargetParseError IpSet :=
  match hostName u name with
  | .unbracketed => .error (.unbracketedAddress name)
  | .mistyped => .error (.mistypedAddress name)
  | .yes => do
    let lookup ← okOr ctx.hosts (.noHostLookup name)
    let addresses := (lookup name).getD []
    if addresses.isEmpty then .error (.unknownHost name) else return into.extend addresses

def resolveAddress (ctx : TargetContext) (expression : Text) (resolved : IpSet) (address : Text) :
    Except TargetParseError IpSet :=
  match insertExpression address resolved ctx.keywords ctx.zones with
  | (set, .ok ()) => .ok set
  | (set, .error (.malformed _)) => resolveHost u address set ctx
  | (_, .error source) => .error (.address expression source)

def portsOf (defaultPorts : PortSet) (expression : Text) : Option Text → Except TargetParseError PortSet
  | some spec => (PortSet.parseScan spec).mapError (.ports expression)
  | none => .ok defaultPorts

def resolve (defaultPorts : PortSet) (token : Text) (ctx : TargetContext) :
    Except TargetParseError (PortSet × IpSet) := do
  let expr ← TargetExpr.parse token
  let ports ← portsOf defaultPorts (trim token) expr.ports
  let resolved ← expr.addresses.foldlM (resolveAddress u ctx (trim token)) IpSet.new
  if resolved.isEmpty then .error (.resolvedToNothing (trim token)) else return (ports, resolved)

/-! ## The builder -/

def GROUPING_SAMPLE : Nat := 1024

def MIN_REGROUPED_SHARE : Nat := 16

structure TargetMapBuilder where
  defaultPorts : PortSet
  groups : List (PortSet × IpSet)
  index : Option (AList fun _ : PortSet => Nat)
  (accepted grossAddresses : Nat)

namespace TargetMapBuilder

def new (defaultPorts : PortSet) : TargetMapBuilder := ⟨defaultPorts, [], some ∅, 0, 0⟩

def pushRanges (target resolved : IpSet) : IpSet :=
  resolved.v6.foldl IpSet.pushV6Range (resolved.v4.foldl IpSet.pushV4Range target)

variable (b : TargetMapBuilder)

def place (ports : PortSet) (resolved : IpSet) : TargetMapBuilder :=
  match b.index.bind fun index => index.lookup ports with
  | some slot => { b with groups := b.groups.modify slot fun group => (group.1, pushRanges group.2 resolved) }
  | none => { b with
      groups := b.groups ++ [(ports, resolved)]
      index := b.index.map fun index => index.insert ports b.groups.length }

def reconsiderGrouping : TargetMapBuilder :=
  if b.index.isNone || b.accepted < GROUPING_SAMPLE then b
  else if (b.accepted - b.groups.length) * MIN_REGROUPED_SHARE < b.accepted then { b with index := none }
  else b

/-- Adds one expression, or refuses it whole. -/
def push (u : Unicode) (b : TargetMapBuilder) (token : Text) (ctx : TargetContext) :
    TargetMapBuilder × Except TargetParseError Unit :=
  match resolve u b.defaultPorts token ctx with
  | .error error => (b, .error error)
  | .ok (ports, resolved) =>
    let counted := { b with
      grossAddresses := Word.satAdd 128 b.grossAddresses resolved.lenGross
      accepted := b.accepted + 1 }
    ((counted.place ports resolved).reconsiderGrouping, .ok ())

/-- How many groups a build makes units of. -/
def groupCount : Nat := b.groups.length

def addressCount : TargetMapBuilder × Nat :=
  let groups := b.groups.map fun group => (group.1, group.2.canonicalize)
  ({ b with groups }, groups.foldl (fun total group => Word.satAdd 128 total group.2.len) 0)

def grossAddressCount : Nat := b.grossAddresses

/-- The plan of all accepted expressions. -/
def build : TargetMap := ⟨b.groups.map fun group => TargetSet.new group.2 group.1⟩

def pushes (u : Unicode) (b : TargetMapBuilder) (calls : List (Text × TargetContext)) : TargetMapBuilder :=
  calls.foldl (fun b call => (b.push u call.1 call.2).1) b

end TargetMapBuilder

/-- An expression names the ports it was written with, or else the default ones, and at least one address. -/
structure Names (u : Unicode) (defaultPorts : PortSet) (call : Text × TargetContext) (ports : PortSet) (ips : IpSet) :
    Prop where
  read : ∃ expr, TargetExpr.parse call.1 = .ok expr ∧
    (match expr.ports with
      | some written => PortSet.parseScan written = .ok ports
      | none => ports = defaultPorts) ∧
    expr.addresses.foldlM (resolveAddress u call.2 (trim call.1)) IpSet.new = .ok ips
  nonempty : ips.isEmpty = false

theorem resolve_eq_ok_iff {u : Unicode} {defaultPorts ports : PortSet} {c : Text × TargetContext} {ips : IpSet} :
    resolve u defaultPorts c.1 c.2 = .ok (ports, ips) ↔ Names u defaultPorts c ports ips := by
  have hports : ∀ written, portsOf defaultPorts (trim c.1) written = .ok ports ↔
      match written with
      | some written => PortSet.parseScan written = .ok ports
      | none => ports = defaultPorts := by
    intro written
    cases written with
    | none => simp [portsOf, eq_comm]
    | some spec => cases hspec : PortSet.parseScan spec <;> simp [portsOf, hspec, Except.mapError]
  constructor
  · intro h
    obtain ⟨expr, hexpr, h⟩ := bind_eq_ok h
    obtain ⟨found, hfound, h⟩ := bind_eq_ok h
    obtain ⟨all, hfold, h⟩ := bind_eq_ok h
    split at h
    · cases h
    · rename_i hne
      cases h
      exact ⟨⟨expr, hexpr, (hports _).mp hfound, hfold⟩, Bool.eq_false_iff.mpr hne⟩
  · rintro ⟨⟨expr, hexpr, hwritten, hfold⟩, hne⟩
    simp only [resolve, hexpr, bind, Except.bind, (hports _).mpr hwritten, hfold, hne]
    rfl

/-! ## The builder loses and invents nothing -/

namespace TargetMapBuilder

def tuplesOf (named : List (PortSet × IpSet)) : Set ((IpAddr × Zone) × UInt16 × Protocol) :=
  {x | ∃ n ∈ named, x.1 ∈ n.2.pairs ∧ x.2 ∈ n.1.iter}

variable (xs ys : List (PortSet × IpSet))

theorem tuplesOf_append : tuplesOf (xs ++ ys) = tuplesOf xs ∪ tuplesOf ys := by
  ext x
  simp only [tuplesOf, Set.mem_union, Set.mem_ofPred_eq, mem_append, or_and_right, exists_or]

theorem tuplesOf_cons (y : PortSet × IpSet) (ys : List (PortSet × IpSet)) :
    tuplesOf (y :: ys) = tuplesOf [y] ∪ tuplesOf ys := tuplesOf_append [y] ys

theorem tuplesOf_union {ports : PortSet} {s t u : IpSet} (h : u.pairs = s.pairs ∪ t.pairs) :
    tuplesOf [(ports, u)] = tuplesOf [(ports, s)] ∪ tuplesOf [(ports, t)] := by
  ext x
  simp only [tuplesOf, Set.mem_union, Set.mem_ofPred_eq, mem_singleton, exists_eq_left, h, or_and_right]

theorem pairs_pushRanges (target resolved : IpSet) :
    (pushRanges target resolved).pairs = target.pairs ∪ resolved.pairs := by
  rw [pushRanges, IpSet.pairs_foldl IpSet.pairs_pushV6Range, IpSet.pairs_foldl IpSet.pairs_pushV4Range,
    resolved.pairs_eq_union, Set.union_assoc]

noncomputable def heldBy (groups : List (PortSet × IpSet)) : Nat := (groups.map fun group => group.2.pairs.ncard).sum

def grossOf (named : List (PortSet × IpSet)) : Nat := (named.map fun n => n.2.grossSize).sum

structure Accounts (b : TargetMapBuilder) (named : List (PortSet × IpSet)) : Prop where
  indexed : ∀ index ∈ b.index, ∀ ports slot, index.lookup ports = some slot → ∃ ips, b.groups[slot]? = some (ports, ips)
  tuples : tuplesOf b.groups = tuplesOf named
  nonempty : ∀ group ∈ b.groups, group.2.isEmpty = false
  held : heldBy b.groups ≤ grossOf named
  gross : b.grossAddresses = min (grossOf named) (Word.top 128)

variable {b : TargetMapBuilder} {named : List (PortSet × IpSet)} {ports : PortSet} {resolved : IpSet}

theorem accounts_new (defaultPorts : PortSet) : Accounts (new defaultPorts) [] where
  indexed := by
    intro index hindex ports slot hslot
    cases hindex
    cases hslot
  tuples := rfl
  nonempty := nofun
  held := le_rfl
  gross := rfl

theorem Accounts.reconsiderGrouping (h : Accounts b named) : Accounts b.reconsiderGrouping named := by
  unfold TargetMapBuilder.reconsiderGrouping
  split_ifs
  · exact h
  · exact ⟨nofun, h.tuples, h.nonempty, h.held, h.gross⟩
  · exact h

theorem grossOf_append : grossOf (xs ++ ys) = grossOf xs + grossOf ys := by
  rw [grossOf, map_append, sum_append]
  rfl

theorem heldBy_append : heldBy (xs ++ ys) = heldBy xs + heldBy ys := by
  rw [heldBy, map_append, sum_append]
  rfl

theorem heldBy_cons (y : PortSet × IpSet) (ys : List (PortSet × IpSet)) : heldBy (y :: ys) =
    y.2.pairs.ncard + heldBy ys := rfl

theorem Accounts.gross_next (h : Accounts b named) : Word.satAdd 128 b.grossAddresses resolved.lenGross =
    min (grossOf (named ++ [(ports, resolved)])) (Word.top 128) := by
  have hone : grossOf [(ports, resolved)] = resolved.grossSize := rfl
  rw [Word.satAdd, h.gross, IpSet.lenGross_eq, grossOf_append, hone]
  omega

theorem Accounts.join {slot : Nat} {ips : IpSet} (h : Accounts b named)
    (hslot : b.groups[slot]? = some (ports, ips)) :
    Accounts { b with
      grossAddresses := Word.satAdd 128 b.grossAddresses resolved.lenGross
      accepted := b.accepted + 1
      groups := b.groups.modify slot fun group => (group.1, pushRanges group.2 resolved) }
      (named ++ [(ports, resolved)]) := by
  obtain ⟨hlt, hat⟩ := List.getElem?_eq_some_iff.mp hslot
  obtain ⟨before, group, after, hgroups, hlen, hmodify⟩ :=
    exists_of_modify (fun group : PortSet × IpSet => (group.1, pushRanges group.2 resolved)) hlt
  have hgroup : group = (ports, ips) := by
    rw [hgroups, List.getElem?_append_right hlen.le, hlen, Nat.sub_self] at hslot
    exact Option.some.inj hslot
  subst hgroup
  have hpairs := pairs_pushRanges ips resolved
  constructor
  · intro index hindex ports' slot' hlookup
    obtain ⟨ips', hips'⟩ := h.indexed index hindex ports' slot' hlookup
    rw [List.getElem?_modify, hips']
    split <;> exact ⟨_, rfl⟩
  · have htuples := h.tuples
    rw [hgroups, tuplesOf_append, tuplesOf_cons] at htuples
    rw [hmodify, tuplesOf_append, tuplesOf_cons, tuplesOf_append named, tuplesOf_union hpairs, ← htuples]
    grind
  · intro group hmem
    rw [hmodify, mem_append, mem_cons] at hmem
    rcases hmem with hmem | rfl | hmem
    · exact h.nonempty group (hgroups ▸ mem_append_left _ hmem)
    · have hne := h.nonempty (ports, ips) (hgroups ▸ mem_append_right _ mem_cons_self)
      rw [← Bool.not_eq_true, ← IpSet.pairs_eq_empty_iff] at hne ⊢
      rw [hpairs]
      exact fun hempty => hne (Set.union_empty_iff.mp hempty).1
    · exact h.nonempty group (hgroups ▸ mem_append_right _ (mem_cons_of_mem _ hmem))
  · have hheld := h.held
    have hunion := Set.ncard_union_le ips.pairs resolved.pairs
    have hgross := resolved.ncard_pairs_le
    have hone : grossOf [(ports, resolved)] = resolved.grossSize := rfl
    rw [hgroups, heldBy_append, heldBy_cons] at hheld
    rw [hmodify, heldBy_append, heldBy_cons, grossOf_append, hpairs, hone]
    dsimp only at hheld
    omega
  · exact h.gross_next

theorem Accounts.start (h : Accounts b named) (hne : resolved.isEmpty = false) :
    Accounts { b with
      grossAddresses := Word.satAdd 128 b.grossAddresses resolved.lenGross
      accepted := b.accepted + 1
      groups := b.groups ++ [(ports, resolved)]
      index := b.index.map fun index => index.insert ports b.groups.length } (named ++ [(ports, resolved)]) := by
  constructor
  · intro index hindex ports' slot' hlookup
    obtain ⟨index', hindex', rfl⟩ := Option.mem_map.mp hindex
    rcases Table.lookup_insert_cases hlookup with ⟨rfl, rfl⟩ | ⟨-, hold⟩
    · exact ⟨resolved, by simp⟩
    · obtain ⟨ips, hips⟩ := h.indexed index' hindex' ports' slot' hold
      have hlt := (List.getElem?_eq_some_iff.mp hips).1
      exact ⟨ips, by rwa [List.getElem?_append_left hlt]⟩
  · rw [tuplesOf_append, tuplesOf_append, h.tuples]
  · intro group hmem
    rcases mem_append.mp hmem with hmem | hmem
    · exact h.nonempty group hmem
    · rw [mem_singleton.mp hmem]
      exact hne
  · have hheld := h.held
    have hgross := resolved.ncard_pairs_le
    have hone : grossOf [(ports, resolved)] = resolved.grossSize := rfl
    have hone' : heldBy [(ports, resolved)] = resolved.pairs.ncard := rfl
    rw [heldBy_append, grossOf_append, hone, hone']
    omega
  · exact h.gross_next

/-- **One call keeps the account.** -/
theorem Accounts.push (u : Unicode) (h : Accounts b named) (token : Text) (ctx : TargetContext) :
    Accounts (b.push u token ctx).1 (named ++ (resolve u b.defaultPorts token ctx).toOption.toList) := by
  unfold TargetMapBuilder.push
  cases hresolve : resolve u b.defaultPorts token ctx with
  | error error => simpa [Except.toOption] using h
  | ok result =>
    obtain ⟨ports, resolved⟩ := result
    refine Accounts.reconsiderGrouping ?_
    unfold place
    cases hslot : b.index.bind fun index => index.lookup ports with
    | some slot =>
      obtain ⟨index, hindex, hlookup⟩ := Option.bind_eq_some_iff.mp hslot
      obtain ⟨ips, hips⟩ := h.indexed index hindex ports slot hlookup
      exact h.join hips
    | none =>
      exact h.start (resolve_eq_ok_iff (c := (token, ctx)) |>.mp hresolve).nonempty

def acceptedNames (u : Unicode) (defaultPorts : PortSet) (calls : List (Text × TargetContext)) :
    List (PortSet × IpSet) :=
  calls.flatMap fun call => (resolve u defaultPorts call.1 call.2).toOption.toList

theorem defaultPorts_push (u : Unicode) (b : TargetMapBuilder) (token : Text) (ctx : TargetContext) :
    (b.push u token ctx).1.defaultPorts = b.defaultPorts := by
  unfold TargetMapBuilder.push
  cases resolve u b.defaultPorts token ctx with
  | error error => rfl
  | ok result =>
    dsimp only
    unfold TargetMapBuilder.reconsiderGrouping place
    split_ifs <;> split <;> rfl

/-- **A sequence of calls keeps the account.** -/
theorem Accounts.pushes (u : Unicode) (calls : List (Text × TargetContext)) (h : Accounts b named) :
    Accounts (b.pushes u calls) (named ++ acceptedNames u b.defaultPorts calls) ∧
      (b.pushes u calls).defaultPorts = b.defaultPorts := by
  induction calls generalizing b named with
  | nil =>
    rw [acceptedNames, flatMap_nil, append_nil]
    exact ⟨h, rfl⟩
  | cons call calls ih =>
    have hrest := ih (h.push u call.1 call.2)
    rw [defaultPorts_push, append_assoc] at hrest
    exact hrest

theorem addressCount_eq (b : TargetMapBuilder) : b.addressCount.2 = min (heldBy b.groups) (Word.top 128) := by
  have hlen : ∀ group : PortSet × IpSet, group.2.canonicalize.len = min group.2.pairs.ncard (Word.top 128) := by
    intro group
    rw [IpSet.len_eq_min, IpSet.pairs_canonicalize]
  have hfold := Word.foldl_satAdd_eq_min 128 hlen b.groups 0 0 rfl
  rw [Nat.zero_add] at hfold
  rw [addressCount, foldl_map]
  exact hfold

theorem tuples_build (b : TargetMapBuilder) : b.build.tuples = tuplesOf b.groups := by
  simp [TargetMap.tuples, build, tuplesOf, TargetSet.new]

/-- **Grouping loses and invents nothing**: a refused expression changes nothing, the units have the addresses of every
accepted one on its ports, and the running count is never below the merged one. -/
theorem pushes_exact (u : Unicode) (defaultPorts : PortSet) (calls : List (Text × TargetContext)) :
    (∀ call, match (((new defaultPorts).pushes u calls).push u call.1 call.2).2 with
      | .error _ => (((new defaultPorts).pushes u calls).push u call.1 call.2).1 = (new defaultPorts).pushes u calls ∧
          ¬ ∃ ports ips, Names u defaultPorts call ports ips
      | .ok () => ∃ ports ips, Names u defaultPorts call ports ips) ∧
    ((new defaultPorts).pushes u calls).build.tuples = {x | ∃ call ∈ calls, ∃ ports ips,
      Names u defaultPorts call ports ips ∧ x.1 ∈ ips.pairs ∧ x.2 ∈ ports.iter} ∧
    (∀ target, target ∈ ((new defaultPorts).pushes u calls).build.iter ↔
      ∃ zone, ((target.ip, zone), target.port, target.protocol) ∈ ((new defaultPorts).pushes u calls).build.tuples) ∧
    ((new defaultPorts).pushes u calls).build.units.length = ((new defaultPorts).pushes u calls).groupCount ∧
    (∀ unit ∈ ((new defaultPorts).pushes u calls).build.units, unit.ips.pairs.Nonempty) ∧
    ((new defaultPorts).pushes u calls).addressCount.2 ≤ ((new defaultPorts).pushes u calls).grossAddressCount := by
  obtain ⟨haccounts, hports⟩ := (accounts_new defaultPorts).pushes u calls
  generalize (new defaultPorts).pushes u calls = b at haccounts hports ⊢
  have hdefault : b.defaultPorts = defaultPorts := hports
  rw [nil_append] at haccounts
  refine ⟨fun call => ?_, ?_, fun target => b.build.mem_iter, by simp [build, groupCount], fun unit hunit => ?_, ?_⟩
  · simp only [push, hdefault, ← resolve_eq_ok_iff]
    cases resolve u defaultPorts call.1 call.2 with
    | error error => simp
    | ok result => exact ⟨_, _, rfl⟩
  · rw [tuples_build, haccounts.tuples]
    ext x
    simp only [tuplesOf, acceptedNames, mem_flatMap, Set.mem_ofPred_eq, ← resolve_eq_ok_iff]
    constructor
    · rintro ⟨⟨ports, ips⟩, ⟨call, hcall, hnamed⟩, hin⟩
      refine ⟨call, hcall, ports, ips, ?_, hin⟩
      cases hresolve : resolve u defaultPorts call.1 call.2 with
      | error error => simp [new, hresolve, Except.toOption] at hnamed
      | ok result =>
        simp only [new, hresolve, Except.toOption, Option.toList_some, mem_singleton] at hnamed
        rw [hnamed]
    · rintro ⟨call, hcall, ports, ips, hresolve, hin⟩
      exact ⟨(ports, ips), ⟨call, hcall, by simp [new, hresolve, Except.toOption]⟩, hin⟩
  · obtain ⟨group, hgroup, rfl⟩ := mem_map.mp hunit
    have hne := haccounts.nonempty group hgroup
    rw [← Bool.not_eq_true, ← IpSet.pairs_eq_empty_iff] at hne
    rw [TargetSet.new, IpSet.pairs_canonicalize]
    exact Set.nonempty_iff_ne_empty.mpr hne
  · rw [addressCount_eq, grossAddressCount, haccounts.gross]
    have := haccounts.held
    omega

/-! A list of targets as a person writes it: a network and a range, addresses of both families, one on a link, and a
name. The last two are refused. -/

def linkContext : TargetContext where
  keywords := none
  zones := some fun name => if name = "eth0" then some 2 else none
  hosts := some fun name => if name = "nas.example" then some [.v4 0x0a000009] else none

def mixedCalls : List (Text × TargetContext) :=
  ["192.0.2.0/30:80,443", "192.0.2.8-9", "[2001:db8::1]:u:53", "fe80::1%eth0", "nas.example:80,443", "10.0.0.300",
    "10.0.0.1:"].map fun token => (token.toList, linkContext)

def mixed : TargetMapBuilder := (new (.fromIter [(22, .tcp)])).pushes ⟨fun _ => false, fun _ => false⟩ mixedCalls

theorem pushes_exact_mixed :
    mixed.build.iter = (([0x0a000009, 0xc0000200, 0xc0000201, 0xc0000202, 0xc0000203].flatMap fun ip =>
        [⟨.v4 ip, 80, .tcp⟩, ⟨.v4 ip, 443, .tcp⟩]) ++
      [⟨.v4 0xc0000208, 22, .tcp⟩, ⟨.v4 0xc0000209, 22, .tcp⟩, ⟨.v6 0xfe800000000000000000000000000001, 22, .tcp⟩,
        ⟨.v6 0x20010db8000000000000000000000001, 53, .udp⟩]) ∧
    ∀ target ∈ mixed.build.iter, ∃ call ∈ mixedCalls, ∃ ports ips,
      Names ⟨fun _ => false, fun _ => false⟩ (.fromIter [(22, .tcp)]) call ports ips ∧
        (∃ zone, (target.ip, zone) ∈ ips.pairs) ∧ (target.port, target.protocol) ∈ ports.iter := by
  obtain ⟨-, htuples, hiter, -⟩ := pushes_exact ⟨fun _ => false, fun _ => false⟩ (.fromIter [(22, .tcp)]) mixedCalls
  refine ⟨by decide +kernel, fun target htarget => ?_⟩
  obtain ⟨zone, hzone⟩ := (hiter target).mp htarget
  rw [htuples] at hzone
  obtain ⟨call, hcall, ports, ips, hnames, hip, hport⟩ := hzone
  exact ⟨call, hcall, ports, ips, hnames, ⟨zone, hip⟩, hport⟩

end TargetMapBuilder

end Zond.Parse

import Mathlib.Data.List.Lex
import Mathlib.Data.List.Nodup
import MoveTools.Library.Decimal
import MoveTools.Disassembler.Module

namespace MoveTools.Disassembler

section
variable {κ β : Type} [BEq κ] [LawfulBEq κ]

theorem lookup_cons_eq [DecidableEq κ] (x : κ × β) (m : List (κ × β))
    (k : κ) : (x :: m).lookup k = if k = x.1 then some x.2 else m.lookup k := by
  rw [List.lookup_cons]
  by_cases hk : k = x.1
  · rw [if_pos hk, beq_iff_eq.mpr hk]
  · rw [if_neg hk, beq_eq_false_iff_ne.mpr hk]

variable [LT κ] {m : List (κ × β)} {key k : κ}

abbrev Ordered (m : List (κ × β)) : Prop := m.Pairwise fun x y => x.1 < y.1

variable [Std.Irrefl ((· < ·) : κ → κ → Prop)]

theorem lookup_eq_none_of_lt (h : ∀ x ∈ m, key < x.1) : m.lookup key = none := by
  rw [List.lookup_eq_none_iff]
  intro x hx
  rw [bne_iff_ne]
  intro he
  have hlt := h x hx
  rw [he] at hlt
  exact Std.Irrefl.irrefl x.1 hlt

theorem mem_iff_lookup [DecidableEq κ] (hm : Ordered m) {b : β} : (k, b) ∈ m ↔ m.lookup k = some b := by
  induction m with
  | nil => simp
  | cons y m ih =>
    obtain ⟨hy, hm'⟩ := List.pairwise_cons.mp hm
    obtain ⟨k', b'⟩ := y
    rw [List.mem_cons, lookup_cons_eq, Prod.mk.injEq]
    by_cases hk : k = k'
    · subst hk
      have hnone : (k, b) ∉ m := fun hmem => Std.Irrefl.irrefl k (hy _ hmem)
      simp [hnone, eq_comm]
    · simp [hk, ih hm']

variable [Trans ((· < ·) : κ → κ → Prop) (· < ·) (· < ·)]

theorem lookup_of_lt {y : κ × β} (hm : Ordered (y :: m)) (hlt : key < y.1) :
    (y :: m).lookup key = none := by
  apply lookup_eq_none_of_lt
  intro z hz
  rcases List.mem_cons.mp hz with rfl | hz
  · exact hlt
  · exact Trans.trans hlt ((List.pairwise_cons.mp hm).1 z hz)

variable [DecidableEq κ] [DecidableLT κ] {change : Option β → β}

theorem lookup_upsert (hm : Ordered m) : (upsert key change m).lookup k =
    if k = key then some (change (m.lookup key)) else m.lookup k := by
  induction m with
  | nil => rw [upsert, lookup_cons_eq, List.lookup_nil, List.lookup_nil]
  | cons y m ih =>
    have ih := ih (List.pairwise_cons.mp hm).2
    unfold upsert
    split
    · rename_i heq
      rw [lookup_cons_eq, lookup_cons_eq, lookup_cons_eq, if_pos heq, heq]
      by_cases hk : k = y.1
      · rw [if_pos hk, if_pos hk]
      · rw [if_neg hk, if_neg hk, if_neg hk]
    · rename_i hne
      split
      · rename_i hlt
        rw [lookup_of_lt hm hlt, lookup_cons_eq]
      · rw [lookup_cons_eq, lookup_cons_eq, lookup_cons_eq, if_neg hne, ih]
        by_cases hk : k = key
        · rw [if_pos hk, if_pos hk, hk, if_neg hne]
        · rw [if_neg hk, if_neg hk]

theorem length_upsert (hm : Ordered m) : (upsert key change m).length =
    m.length + if m.lookup key = none then 1 else 0 := by
  induction m with
  | nil => rfl
  | cons y m ih =>
    have ih := ih (List.pairwise_cons.mp hm).2
    unfold upsert
    split
    · rename_i heq
      rw [lookup_cons_eq, if_pos heq, if_neg (Option.some_ne_none _)]
      rfl
    · rename_i hne
      split
      · rename_i hlt
        rw [lookup_of_lt hm hlt, if_pos rfl]
        rfl
      · rw [lookup_cons_eq, if_neg hne, List.length_cons, List.length_cons, ih, Nat.add_right_comm]

end

section
variable {κ β : Type} [DecidableEq κ] [LT κ] [DecidableLT κ] {m : List (κ × β)} {key : κ}
  {change : Option β → β}

theorem mem_upsert {x : κ × β} (h : x ∈ upsert key change m) : x.1 = key ∨ ∃ y ∈ m, y.1 = x.1 := by
  induction m with
  | nil => exact .inl (by rw [List.mem_singleton.mp h])
  | cons y m ih =>
    unfold upsert at h
    split at h
    · rcases List.mem_cons.mp h with rfl | h
      · exact .inr ⟨y, List.mem_cons_self, rfl⟩
      · exact .inr ⟨x, List.mem_cons_of_mem _ h, rfl⟩
    · split at h
      · rcases List.mem_cons.mp h with rfl | h
        · exact .inl rfl
        · exact .inr ⟨x, h, rfl⟩
      · rcases List.mem_cons.mp h with rfl | h
        · exact .inr ⟨_, List.mem_cons_self, rfl⟩
        · exact (ih h).imp_right fun ⟨z, hz, he⟩ => ⟨z, List.mem_cons_of_mem _ hz, he⟩

theorem ordered_upsert [Trans ((· < ·) : κ → κ → Prop) (· < ·) (· < ·)]
    [Std.Trichotomous ((· < ·) : κ → κ → Prop)] (hm : Ordered m) : Ordered (upsert key change m) := by
  induction m with
  | nil => exact List.pairwise_singleton _ _
  | cons y m ih =>
    obtain ⟨hy, hm'⟩ := List.pairwise_cons.mp hm
    unfold upsert
    split
    · exact List.pairwise_cons.mpr ⟨hy, hm'⟩
    · rename_i hne
      split
      · rename_i hlt
        refine List.pairwise_cons.mpr ⟨fun z hz => ?_, hm⟩
        rcases List.mem_cons.mp hz with rfl | hz
        · exact hlt
        · exact Trans.trans hlt (hy z hz)
      · rename_i hnlt
        have hgt : y.1 < key := by
          by_contra hge
          exact hne (Std.Trichotomous.trichotomous key y.1 hnlt hge)
        refine List.pairwise_cons.mpr ⟨fun z hz => ?_, ih hm'⟩
        rcases mem_upsert hz with rfl | ⟨w, hw, he⟩
        · exact hgt
        · exact he ▸ hy w hw

end

def Import.printed : Import → String
  | .Name name => name
  | .Alias name id => name ++ "_" ++ toString id

namespace Imports

/-- `get_import` -/
def getImport (i : Imports) (address : AccountAddress) (name : String) : Option Import :=
  (i.imports.lookup name).bind (·.lookup address)

/-- The name that a use introduces. -/
def introduced (x : String × AccountAddress × Import) : String :=
  match x.2.2 with
  | .Name _ => x.1
  | .Alias name id => name ++ "_" ++ toString id

/-- What the name stands for, if exactly one use introduces it. -/
def resolve (i : Imports) (name : String) : Option (AccountAddress × String) :=
  match i.entries.filter (introduced · = name) with
  | [x] => some (x.2.1, x.1)
  | _ => none

def imported (selfModuleHandle : Option ℕ) (handles : List ModuleHandle) : List ModuleHandle :=
  (handles.zipIdx.filter fun x => some x.2 ≠ selfModuleHandle).map Prod.fst

/-- The names of the use list are different, and each printed module name is resolved to what its
handle stands for. -/
structure Unambiguous (selfModuleHandle : Option ℕ) (handles : List ModuleHandle) : Prop where
  distinct : ((new selfModuleHandle handles).entries.map introduced).Nodup
  resolves : ∀ h ∈ handles, ∀ import_,
    (new selfModuleHandle handles).getImport h.address h.name = some import_ →
      resolve (new selfModuleHandle handles) import_.printed = some (h.address, h.name)

def addAddress (name : String) (addresses : List AccountAddress) (h : ModuleHandle) :
    List AccountAddress :=
  if h.name = name ∧ addresses.contains h.address = false then addresses ++ [h.address]
  else addresses

/-- The addresses from which modules of one name are imported, each where it comes first. -/
def addressesOf (name : String) (handles : List ModuleHandle) : List AccountAddress :=
  handles.foldl (addAddress name) []

/-- No imported module has the name of an alias. -/
def NoAliasTaken (selfModuleHandle : Option ℕ) (handles : List ModuleHandle) : Prop :=
  ∀ h ∈ imported selfModuleHandle handles, ∀ name k, 0 < k →
    k < (addressesOf name (imported selfModuleHandle handles)).length →
      h.name ≠ name ++ "_" ++ toString k

def importAt (name : String) (addresses : List AccountAddress) (address : AccountAddress) :
    Option Import :=
  (addresses.idxOf? address).map fun i => if i = 0 then .Name name else .Alias name i

section
variable {handles : List ModuleHandle} {m : List (String × List (AccountAddress × Import))}

theorem addressesOf_concat (name : String) (handles : List ModuleHandle) (h : ModuleHandle) :
    addressesOf name (handles ++ [h]) = addAddress name (addressesOf name handles) h := by
  rw [addressesOf, List.foldl_append]
  rfl

theorem mem_addressesOf {name : String} {address : AccountAddress} :
    address ∈ addressesOf name handles ↔ ⟨address, name⟩ ∈ handles := by
  induction handles using List.reverseRecOn with
  | nil => simp [addressesOf]
  | append_singleton handles h ih =>
    rw [addressesOf_concat, List.mem_append, List.mem_singleton, ← ih, addAddress]
    obtain ⟨a, n⟩ := h
    rw [ModuleHandle.mk.injEq]
    split
    · rename_i hnew
      rw [List.mem_append, List.mem_singleton]
      simp only at hnew
      simp [hnew.1]
    · rename_i hold
      constructor
      · exact .inl
      · rintro (hmem | ⟨rfl, rfl⟩)
        · exact hmem
        · simp only [true_and, Bool.not_eq_false, List.contains_iff_mem] at hold
          exact hold

theorem importAt_concat {name : String} {addresses : List AccountAddress} {x : AccountAddress}
    (hx : x ∉ addresses) (a : AccountAddress) : importAt name (addresses ++ [x]) a =
      if a = x then some (if addresses.length = 0 then .Name name else .Alias name addresses.length)
      else importAt name addresses a := by
  have hidx : (addresses ++ [x]).idxOf? a =
      (addresses.idxOf? a).or (([x].idxOf? a).map (· + addresses.length)) :=
    List.findIdx?_append
  unfold importAt
  rw [hidx, List.idxOf?_singleton]
  by_cases ha : a = x
  · subst ha
    simp [List.idxOf?_eq_none_iff.mpr hx]
  · simp [ha, Ne.symm ha]

theorem importAt_eq_none {name : String} {addresses : List AccountAddress} {a : AccountAddress} :
    importAt name addresses a = none ↔ a ∉ addresses := by
  rw [importAt, Option.map_eq_none_iff, List.idxOf?_eq_none_iff]

theorem addAddress_of_mem {addresses : List AccountAddress} {h : ModuleHandle}
    (hmem : h.address ∈ addresses) (name : String) : addAddress name addresses h = addresses :=
  if_neg fun hnew => by simp [hmem] at hnew

theorem addAddress_of_notMem {addresses : List AccountAddress} {h : ModuleHandle}
    (hmem : h.address ∉ addresses) : addAddress h.name addresses h = addresses ++ [h.address] :=
  if_pos ⟨rfl, by simpa using hmem⟩

/-- Each name has its addresses, numbered in the order of their handles. -/
structure Built (handles : List ModuleHandle)
    (m : List (String × List (AccountAddress × Import))) : Prop where
  ordered : Ordered m
  inner : ∀ name, Ordered ((m.lookup name).getD [])
  length : ∀ name, ((m.lookup name).getD []).length = (addressesOf name handles).length
  lookup : ∀ name a, ((m.lookup name).getD []).lookup a =
    importAt name (addressesOf name handles) a

theorem Built.concat (hm : Built handles m) (h : ModuleHandle) :
    Built (handles ++ [h]) (Imports.insert m h) := by
  have hlookup : ∀ name, ((Imports.insert m h).lookup name).getD [] =
      if name = h.name then insertName h ((m.lookup h.name).getD []) else (m.lookup name).getD [] := by
    intro name
    rw [Imports.insert, lookup_upsert hm.ordered]
    split <;> rfl
  have hother : ∀ name, name ≠ h.name →
      addressesOf name (handles ++ [h]) = addressesOf name handles := by
    intro name hname
    rw [addressesOf_concat, addAddress, if_neg fun hn => hname hn.1.symm]
  have hown := hm.inner h.name
  have hat := hm.lookup h.name h.address
  refine ⟨ordered_upsert hm.ordered, fun name => ?_, fun name => ?_, fun name a => ?_⟩
  · rw [hlookup]
    split
    · exact ordered_upsert hown
    · exact hm.inner name
  · rw [hlookup]
    split
    · rename_i hname
      subst hname
      rw [insertName, length_upsert hown, hm.length, addressesOf_concat, hat]
      by_cases hmem : h.address ∈ addressesOf h.name handles
      · rw [addAddress_of_mem hmem, if_neg (mt importAt_eq_none.mp (not_not.mpr hmem)),
          Nat.add_zero]
      · rw [addAddress_of_notMem hmem, if_pos (importAt_eq_none.mpr hmem), List.length_append,
          List.length_singleton]
    · rename_i hname
      rw [hother name hname, hm.length]
  · rw [hlookup]
    split
    · rename_i hname
      subst hname
      rw [insertName, lookup_upsert hown, addressesOf_concat, hat]
      by_cases hmem : h.address ∈ addressesOf h.name handles
      · -- the address keeps the import it has
        rw [addAddress_of_mem hmem]
        obtain ⟨i, hi⟩ := Option.ne_none_iff_exists'.mp (mt importAt_eq_none.mp (not_not.mpr hmem))
        rw [hi]
        split
        · rename_i ha
          rw [ha, hi]
        · exact hm.lookup h.name a
      -- the address is new, and gets the next number
      · rw [addAddress_of_notMem hmem, importAt_concat hmem, importAt_eq_none.mpr hmem, hm.length]
        split
        · rfl
        · exact hm.lookup h.name a
    · rename_i hname
      rw [hother name hname, hm.lookup]

theorem built_nil : Built [] [] := by
  refine ⟨.nil, fun _ => .nil, fun _ => rfl, fun _ _ => rfl⟩

theorem built_new (selfModuleHandle : Option ℕ) (handles : List ModuleHandle) :
    Built (imported selfModuleHandle handles) (new selfModuleHandle handles).imports := by
  have hfold : ∀ hs : List ModuleHandle, Built hs (hs.foldl Imports.insert []) := by
    intro hs
    induction hs using List.reverseRecOn with
    | nil => exact built_nil
    | append_singleton hs h ih =>
      rw [List.foldl_append]
      exact ih.concat h
  have himports : (new selfModuleHandle handles).imports =
      (imported selfModuleHandle handles).foldl Imports.insert [] := by
    rw [imported, List.foldl_map]
    rfl
  rw [himports]
  exact hfold _

theorem Built.getImport_eq (hm : Built handles m) (address : AccountAddress) (name : String) :
    getImport ⟨m⟩ address name = importAt name (addressesOf name handles) address := by
  rw [← hm.lookup, getImport]
  cases m.lookup name <;> rfl

theorem Built.mem_entries (hm : Built handles m) {name : String} {a : AccountAddress}
    {import_ : Import} : (name, a, import_) ∈ entries ⟨m⟩ ↔
      importAt name (addressesOf name handles) a = some import_ := by
  rw [← hm.lookup, ← mem_iff_lookup (hm.inner name)]
  have hmem : (name, a, import_) ∈ entries ⟨m⟩ ↔
      ∃ nameMap, (name, nameMap) ∈ m ∧ (a, import_) ∈ nameMap := by
    simp [entries]
  rw [hmem]
  constructor
  · rintro ⟨nameMap, hname, ha⟩
    rwa [(mem_iff_lookup hm.ordered).mp hname]
  · intro ha
    cases hname : m.lookup name with
    | none =>
      rw [hname] at ha
      cases ha
    | some nameMap =>
      rw [hname] at ha
      exact ⟨nameMap, (mem_iff_lookup hm.ordered).mpr hname, ha⟩

theorem nodup_of_ordered {κ β : Type} [LT κ] [Std.Irrefl ((· < ·) : κ → κ → Prop)]
    {l : List (κ × β)} (hl : Ordered l) : l.Nodup := by
  refine hl.imp fun {x y} hlt he => ?_
  rw [he] at hlt
  exact Std.Irrefl.irrefl y.1 hlt

theorem Built.nodup_entries (hm : Built handles m) : (entries ⟨m⟩).Nodup := by
  rw [entries, List.nodup_flatMap]
  constructor
  · intro x hx
    have hinner := hm.inner x.1
    rw [(mem_iff_lookup hm.ordered).mp hx] at hinner
    exact (nodup_of_ordered hinner).map fun _ _ he => (Prod.mk.inj he).2
  · refine hm.ordered.imp fun {x y} hlt e hex hey => ?_
    obtain ⟨_, _, rfl⟩ := List.mem_map.mp hex
    obtain ⟨_, _, he⟩ := List.mem_map.mp hey
    rw [(Prod.mk.inj he).1] at hlt
    exact Std.Irrefl.irrefl _ hlt

theorem alias_injective {name name' : String} {k k' : ℕ}
    (h : name ++ "_" ++ toString k = name' ++ "_" ++ toString k') : name = name' ∧ k = k' := by
  have hlist : ∀ (n : String) (i : ℕ),
      (n ++ "_" ++ toString i).toList = n.toList ++ '_' :: Nat.toDigits 10 i := by
    intro n i
    have hdigits : (toString i).toList = Nat.toDigits 10 i := Nat.toList_repr
    rw [String.toList_append, String.toList_append, hdigits, List.append_assoc]
    rfl
  have hcut : ∀ (n : String) (i : ℕ),
      (n.toList ++ '_' :: Nat.toDigits 10 i).rtakeWhile (· != '_') = Nat.toDigits 10 i ∧
        (n.toList ++ '_' :: Nat.toDigits 10 i).rdropWhile (· != '_') = n.toList ++ ['_'] := by
    intro n i
    refine Text.rtakeWhile_append_cons rfl fun d hd => ?_
    rw [bne_iff_ne]
    rintro rfl
    exact Nat.underscore_not_in_toDigits hd
  have hlists := congrArg String.toList h
  rw [hlist, hlist] at hlists
  have hname := (hcut name k).2
  have hnumber := (hcut name k).1
  rw [hlists] at hname hnumber
  have hnames : name'.toList ++ ['_'] = name.toList ++ ['_'] := (hcut name' k').2.symm.trans hname
  have hnumbers : Nat.toDigits 10 k' = Nat.toDigits 10 k := (hcut name' k').1.symm.trans hnumber
  exact ⟨String.toList_inj.mp (List.append_cancel_right hnames).symm,
    (Decimal.display_injective hnumbers).symm⟩

theorem nodup_addressesOf (name : String) (handles : List ModuleHandle) :
    (addressesOf name handles).Nodup := by
  induction handles using List.reverseRecOn with
  | nil => exact .nil
  | append_singleton handles h ih =>
    rw [addressesOf_concat, addAddress]
    split
    · rename_i hnew
      refine List.nodup_append.mpr ⟨ih, List.nodup_singleton _, fun a ha b hb hab => ?_⟩
      rw [List.mem_singleton] at hb
      subst hb hab
      simp [ha] at hnew
    · exact ih

theorem importAt_eq_some {name : String} {addresses : List AccountAddress} {a : AccountAddress}
    {import_ : Import} (hnodup : addresses.Nodup) : importAt name addresses a = some import_ ↔
      ∃ i, addresses[i]? = some a ∧ import_ = if i = 0 then .Name name else .Alias name i := by
  have hidx : ∀ i, addresses.idxOf? a = some i ↔ addresses[i]? = some a := by
    intro i
    rw [List.idxOf?_eq_some_iff, List.getElem?_eq_some_iff]
    constructor
    · rintro ⟨hlt, ha, _⟩
      exact ⟨hlt, ha⟩
    · rintro ⟨hlt, ha⟩
      refine ⟨hlt, ha, fun j hj hja => ?_⟩
      have hji := hnodup.getElem_inj_iff.mp (hja.trans ha.symm)
      exact hj.ne hji
  rw [importAt, Option.map_eq_some_iff]
  simp only [hidx, eq_comm]

/-- A use introduces the name that is printed. -/
theorem Built.introduced_eq (hm : Built handles m) {x : String × AccountAddress × Import}
    (hx : x ∈ entries ⟨m⟩) : introduced x = x.2.2.printed := by
  obtain ⟨name, a, import_⟩ := x
  obtain ⟨i, -, rfl⟩ := (importAt_eq_some (nodup_addressesOf _ _)).mp (hm.mem_entries.mp hx)
  by_cases hi : i = 0
  · simp [introduced, hi, Import.printed]
  · simp [introduced, hi, Import.printed]

theorem Built.entry (hm : Built handles m) {name : String} {a : AccountAddress} {i : ℕ}
    (ha : (addressesOf name handles)[i]? = some a) :
    (name, a, if i = 0 then Import.Name name else Import.Alias name i) ∈ entries ⟨m⟩ :=
  hm.mem_entries.mpr ((importAt_eq_some (nodup_addressesOf _ _)).mpr ⟨i, ha, rfl⟩)

theorem Built.exists_index (hm : Built handles m) {name : String} {a : AccountAddress}
    {import_ : Import} (hx : (name, a, import_) ∈ entries ⟨m⟩) :
    ∃ i, (addressesOf name handles)[i]? = some a ∧
      import_ = if i = 0 then .Name name else .Alias name i :=
  (importAt_eq_some (nodup_addressesOf _ _)).mp (hm.mem_entries.mp hx)

/-- Two uses introduce one name only where a module has the name of an alias. -/
theorem Built.introduced_injective_iff (hm : Built handles m) :
    (∀ x ∈ entries ⟨m⟩, ∀ y ∈ entries ⟨m⟩, introduced x = introduced y → x = y) ↔
      ∀ h ∈ handles, ∀ name k, 0 < k → k < (addressesOf name handles).length →
        h.name ≠ name ++ "_" ++ toString k := by
  constructor
  · intro hinj h hh name k hpos hlt heq
    -- the first address of the name has no alias
    obtain ⟨b, hb⟩ : ∃ b, (addressesOf h.name handles)[0]? = some b := by
      have hmem : h.address ∈ addressesOf h.name handles := mem_addressesOf.mpr hh
      exact ⟨_, List.getElem?_eq_getElem (List.length_pos_of_mem hmem)⟩
    have hname := hm.entry hb
    have halias := hm.entry (List.getElem?_eq_getElem hlt)
    rw [if_pos rfl] at hname
    rw [if_neg hpos.ne'] at halias
    have hsame := hinj _ hname _ halias heq
    cases (Prod.mk.inj (Prod.mk.inj hsame).2).2
  · intro hfree x hx y hy heq
    obtain ⟨name, a, import_⟩ := x
    obtain ⟨name', a', import'⟩ := y
    obtain ⟨i, hi, rfl⟩ := hm.exists_index hx
    obtain ⟨j, hj, rfl⟩ := hm.exists_index hy
    have hhandle : ∀ {n : String} {b : AccountAddress} {k : ℕ},
        (addressesOf n handles)[k]? = some b →
          (⟨b, n⟩ : ModuleHandle) ∈ handles ∧ k < (addressesOf n handles).length := by
      intro n b k hk
      exact ⟨mem_addressesOf.mp (List.mem_of_getElem? hk), (List.getElem?_eq_some_iff.mp hk).1⟩
    obtain ⟨hmi, hli⟩ := hhandle hi
    obtain ⟨hmj, hlj⟩ := hhandle hj
    -- two names, a name and an alias, or two aliases
    rcases Nat.eq_zero_or_pos i with rfl | hipos
    · rcases Nat.eq_zero_or_pos j with rfl | hjpos
      · have hnames : name = name' := heq
        subst hnames
        cases hi.symm.trans hj
        rfl
      · rw [if_neg hjpos.ne'] at heq
        exact absurd heq (hfree _ hmi name' j hjpos hlj)
    · rcases Nat.eq_zero_or_pos j with rfl | hjpos
      · rw [if_neg hipos.ne'] at heq
        exact absurd heq.symm (hfree _ hmj name i hipos hli)
      · rw [if_neg hipos.ne', if_neg hjpos.ne'] at heq
        obtain ⟨rfl, rfl⟩ := alias_injective heq
        cases hi.symm.trans hj
        rfl

theorem Built.resolve_eq (hm : Built handles m)
    (hinj : ∀ x ∈ entries ⟨m⟩, ∀ y ∈ entries ⟨m⟩, introduced x = introduced y → x = y)
    {x : String × AccountAddress × Import} (hx : x ∈ entries ⟨m⟩) :
    resolve ⟨m⟩ (introduced x) = some (x.2.1, x.1) := by
  have hfilter : (entries ⟨m⟩).filter (introduced · = introduced x) = [x] := by
    have hsame : (entries ⟨m⟩).filter (introduced · = introduced x) =
        (entries ⟨m⟩).filter (· = x) := by
      apply List.filter_congr
      intro y hy
      rw [decide_eq_decide]
      constructor
      · intro he
        exact hinj y hy x hx he
      · rintro rfl
        rfl
    rw [hsame, List.filter_eq, List.count_eq_one_of_mem hm.nodup_entries hx]
    rfl
  rw [resolve, hfilter]

end

/-- Aliases are numbered by name, and not compared with the names of other modules. -/
theorem unambiguous_iff (selfModuleHandle : Option ℕ) (handles : List ModuleHandle) :
    Unambiguous selfModuleHandle handles ↔ NoAliasTaken selfModuleHandle handles := by
  have hm := built_new selfModuleHandle handles
  rw [NoAliasTaken, ← hm.introduced_injective_iff, ← List.nodup_map_iff_inj_on hm.nodup_entries]
  constructor
  · intro h
    exact h.distinct
  · intro hdistinct
    have hinj := (List.nodup_map_iff_inj_on hm.nodup_entries).mp hdistinct
    refine ⟨hdistinct, fun h _ import_ himport => ?_⟩
    have hx : (h.name, h.address, import_) ∈ (new selfModuleHandle handles).entries := by
      apply hm.mem_entries.mpr
      rw [← hm.getImport_eq]
      exact himport
    have hresolve := hm.resolve_eq hinj hx
    rwa [hm.introduced_eq hx] at hresolve

/-- Modules `A` at two addresses, and a module `A_1`. -/
theorem alias_taken : ¬Unambiguous none [⟨[1], "A"⟩, ⟨[2], "A"⟩, ⟨[1], "A_1"⟩] := by
  intro h
  have hdistinct := h.distinct
  revert hdistinct
  decide

end Imports
end MoveTools.Disassembler

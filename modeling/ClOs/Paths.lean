import ClOs.PageFrames
import Mathlib.Data.List.DropRight

/-!
# Strings and paths

A C string is the list of its bytes before the terminating zero.  Both file-system
drivers copy a path into an array of 256 bytes, cut it at the slashes and look the
pieces up one after another.
-/

namespace ClOs

abbrev CString := List UInt8

instance : LawfulBEq CString := inferInstance

def asciiBytes (text : String) : CString :=
  text.toList.map (fun c => UInt8.ofNat c.toNat)

def decimalBytes (n : ℕ) : CString :=
  (Nat.toDigits 10 n).map (fun c => UInt8.ofNat c.toNat)

/-- The character `'/'`. -/
def slash : UInt8 := 47

def dropSlash (path : CString) : CString :=
  if path.head? = some slash then path.tail else path

def copyPath (path : CString) : Outcome CString :=
  if (dropSlash path).length < 256 then .ok (dropSlash path)
  else .error .outOfBounds

/-- Remove every trailing slash. -/
def stripSlashes (path : CString) : CString :=
  path.rdropWhile (· = slash)

/-- Remove one trailing slash. -/
def stripSlash (path : CString) : CString :=
  if path.getLast? = some slash then path.dropLast else path

/-- `strrchr(path, '/')` as an index. -/
def lastSlash : CString → Option ℕ
  | [] => none
  | c :: rest =>
      match lastSlash rest with
      | some i => some (i + 1)
      | none => if c = slash then some 0 else none

/-- What `resolve_parent` takes for the file name. -/
def fileName (path : CString) : CString :=
  let stripped := stripSlash (dropSlash path)
  match lastSlash stripped with
  | none => stripped
  | some i => stripped.drop (i + 1)

section

variable {κ ε : Type}

/-- The token loop of `find_file`.  `lookup` searches one directory and `enter`
turns an entry into the directory to search next. -/
def findTokens (lookup : κ → CString → Outcome (Option ε))
    (enter : ε → Outcome (Option κ)) :
    κ → List CString → Outcome (Option (κ × ε))
  | _, [] => .ok none
  | current, token :: rest =>
      if token = [] then findTokens lookup enter current rest
      else do
        match ← lookup current token with
        | none => .ok none
        | some entry =>
            if rest = [] ∨ rest = [[]] then .ok (some (current, entry))
            else
              match ← enter entry with
              | none => .ok none
              | some next => findTokens lookup enter next rest

/-- The same loop on the characters of the array: `strchr` finds the end of a
token, and the loop goes on behind the slash it stops at. -/
def scanPath (lookup : κ → CString → Outcome (Option ε))
    (enter : ε → Outcome (Option κ)) :
    ℕ → κ → CString → Outcome (Option (κ × ε))
  | 0, _, _ => .error .endless
  | fuel + 1, current, path =>
      if path = [] then .ok none
      else
        let token := path.takeWhile (· ≠ slash)
        let found := path.dropWhile (· ≠ slash)
        if token = [] then scanPath lookup enter fuel current found.tail
        else do
          match ← lookup current token with
          | none => .ok none
          | some entry =>
              if found = [] ∨ found.tail = [] then
                .ok (some (current, entry))
              else
                match ← enter entry with
                | none => .ok none
                | some next => scanPath lookup enter fuel next found.tail

def components (path : CString) : List CString :=
  (path.splitOn slash).filter (· ≠ [])

/-- Look names up one after another; the last one need not be a directory. -/
def walkNames (lookup : κ → CString → Outcome (Option ε))
    (enter : ε → Outcome (Option κ)) :
    κ → List CString → Outcome (Option (κ × ε))
  | _, [] => .ok none
  | current, [name] => do
      match ← lookup current name with
      | none => .ok none
      | some entry => .ok (some (current, entry))
  | current, name :: next :: rest => do
      match ← lookup current name with
      | none => .ok none
      | some entry =>
          match ← enter entry with
          | none => .ok none
          | some child => walkNames lookup enter child (next :: rest)

attribute [local simp] findTokens walkNames

theorem findTokens_eq_walkNames
    (lookup : κ → CString → Outcome (Option ε))
    (enter : ε → Outcome (Option κ))
    (current : κ) {tokens : List CString}
    (hlast : tokens.getLast? ≠ some []) :
    findTokens lookup enter current tokens =
      walkNames lookup enter current (tokens.filter (· ≠ [])) := by
  induction tokens generalizing current with
  | nil => rfl
  | cons token rest ih =>
      cases rest with
      | nil =>
          have htoken : token ≠ [] := by simpa using hlast
          simp [htoken]
      | cons next others =>
          have hrest : (next :: others).getLast? ≠ some [] := by
            simpa using hlast
          by_cases htoken : token = []
          · simpa [htoken] using ih current hrest
          · have hmore : next :: others ≠ [[]] := by
              intro hempty
              simp [hempty] at hrest
            cases hnames : (next :: others).filter (· ≠ []) with
            | nil =>
                have hnil := List.filter_eq_nil_iff.1 hnames
                have hmem := List.getLast_mem
                  (List.cons_ne_nil next others)
                have hend := hnil _ hmem
                simp only [ne_eq, decide_not, Bool.not_eq_true',
                  decide_eq_false_iff_not, not_not] at hend
                rw [List.getLast?_eq_some_getLast
                  (List.cons_ne_nil next others), hend] at hrest
                exact absurd rfl hrest
            | cons name names =>
                have hfilter :
                    (token :: next :: others).filter (· ≠ []) =
                      token :: name :: names := by
                  rw [List.filter_cons_of_pos (by simpa using htoken),
                    hnames]
                rw [hfilter]
                rw [findTokens, walkNames, if_neg htoken]
                simp only [hmore, reduceCtorEq, or_self, if_false,
                  ih _ hrest, hnames]

theorem walkNames_concat
    (lookup : κ → CString → Outcome (Option ε))
    (enter : ε → Outcome (Option κ))
    (current : κ) {names : List CString} (name : CString)
    (hnames : names ≠ []) :
    walkNames lookup enter current (names ++ [name]) = (do
      match ← walkNames lookup enter current names with
      | none => .ok none
      | some found =>
          match ← enter found.2 with
          | none => .ok none
          | some child => walkNames lookup enter child [name]) := by
  induction names generalizing current with
  | nil => exact absurd rfl hnames
  | cons first rest ih =>
      cases rest with
      | nil =>
          simp only [List.cons_append, List.nil_append, walkNames]
          cases lookup current first with
          | error halt => rfl
          | ok found => cases found <;> rfl
      | cons next others =>
          simp only [List.cons_append, walkNames]
          cases lookup current first with
          | error halt => rfl
          | ok found =>
              cases found with
              | none => rfl
              | some entry =>
                  cases henter : enter entry with
                  | error halt => simp [henter, bind, Except.bind]
                  | ok child =>
                      cases child with
                      | none => simp [henter, bind, Except.bind]
                      | some child =>
                          have hstep := ih child (List.cons_ne_nil _ _)
                          simpa [henter, bind, Except.bind] using hstep

/-- The lookups that `walkNames` makes, as far as it gets. -/
def lookups (lookup : κ → CString → Outcome (Option ε))
    (enter : ε → Outcome (Option κ)) :
    κ → List CString → List (κ × CString)
  | _, [] => []
  | current, name :: rest =>
      (current, name) ::
        match lookup current name with
        | .ok (some entry) =>
            match enter entry with
            | .ok (some child) => lookups lookup enter child rest
            | _ => []
        | _ => []

attribute [local simp] lookups

section

variable {lookup lookup' : κ → CString → Outcome (Option ε)}
  {enter enter' : ε → Outcome (Option κ)}
  {current : κ} {names : List CString}

theorem walkNames_cons_eq_some
    {name next : CString} {rest : List CString} {found : κ × ε} :
    walkNames lookup enter current (name :: next :: rest) =
        .ok (some found) ↔
      ∃ entry child, lookup current name = .ok (some entry) ∧
        enter entry = .ok (some child) ∧
        walkNames lookup enter child (next :: rest) = .ok (some found) := by
  simp only [walkNames]
  cases lookup current name with
  | error halt => simp [bind, Except.bind]
  | ok result =>
      cases result with
      | none => simp [bind, Except.bind]
      | some entry =>
          cases henter : enter entry with
          | error halt => simp [henter, bind, Except.bind]
          | ok child =>
              cases child with
              | none => simp [henter, bind, Except.bind]
              | some child => simp [henter, bind, Except.bind]

theorem walkNames_singleton_eq_some {name : CString} {found : κ × ε} :
    walkNames lookup enter current [name] = .ok (some found) ↔
      found.1 = current ∧ lookup current name = .ok (some found.2) := by
  obtain ⟨place, entry⟩ := found
  simp only [walkNames]
  cases lookup current name with
  | error halt => simp [bind, Except.bind]
  | ok result =>
      cases result with
      | none => simp [bind, Except.bind]
      | some other =>
          simp [bind, Except.bind, Prod.ext_iff, eq_comm]

/-- The last lookup of a resolved walk gives its result. -/
theorem getLast?_lookups
    {found : κ × ε}
    (hwalk : walkNames lookup enter current names = .ok (some found)) :
    ∃ front name, names = front ++ [name] ∧
      (lookups lookup enter current names).getLast? =
        some (found.1, name) ∧
      lookup found.1 name = .ok (some found.2) := by
  induction names generalizing current with
  | nil => simp at hwalk
  | cons name rest ih =>
      cases rest with
      | nil =>
          obtain ⟨hplace, hlookup⟩ := walkNames_singleton_eq_some.1 hwalk
          refine ⟨[], name, rfl, ?_, by rwa [hplace]⟩
          simp only [lookups, hlookup]
          cases enter found.2 with
          | error halt => simp [hplace]
          | ok child => cases child <;> simp [hplace]
      | cons next others =>
          obtain ⟨entry, child, hlookup, henter, hrest⟩ :=
            walkNames_cons_eq_some.1 hwalk
          obtain ⟨front, last, hnames, hlast, hfound⟩ := ih hrest
          refine ⟨name :: front, last, by rw [hnames]; rfl, ?_, hfound⟩
          rw [lookups, hlookup]
          simp only [henter]
          rw [List.getLast?_cons, hlast]
          rfl

/-- Every lookup of a resolved walk finds something. -/
theorem lookups_found
    {found : κ × ε}
    (hwalk : walkNames lookup enter current names = .ok (some found)) :
    ∀ t ∈ lookups lookup enter current names,
      ∃ entry, lookup t.1 t.2 = .ok (some entry) := by
  induction names generalizing current with
  | nil => simp
  | cons name rest ih =>
      cases rest with
      | nil =>
          obtain ⟨-, hfound⟩ := walkNames_singleton_eq_some.1 hwalk
          intro t ht
          have hfirst : t = (current, name) := by
            rw [lookups, hfound] at ht
            simp only at ht
            split at ht <;> simpa using ht
          subst hfirst
          exact ⟨_, hfound⟩
      | cons next others =>
          obtain ⟨entry, child, hfound, hchild, hrest⟩ :=
            walkNames_cons_eq_some.1 hwalk
          intro t ht
          rw [lookups, hfound] at ht
          simp only [hchild] at ht
          rcases List.mem_cons.1 ht with rfl | hmem
          · exact ⟨entry, hfound⟩
          · exact ih hrest t hmem

/-- Lookups that all agree give the same walk. -/
theorem walkNames_congr
    (hlookup : ∀ t ∈ lookups lookup enter current names,
      lookup' t.1 t.2 = lookup t.1 t.2)
    (henter : ∀ t ∈ lookups lookup enter current names, ∀ entry,
      lookup t.1 t.2 = .ok (some entry) → enter' entry = enter entry) :
    walkNames lookup' enter' current names =
      walkNames lookup enter current names := by
  induction names generalizing current with
  | nil => rfl
  | cons name rest ih =>
      have hfirst : lookup' current name = lookup current name :=
        hlookup (current, name) (by simp)
      cases rest with
      | nil => simp only [walkNames, hfirst]
      | cons next others =>
          simp only [walkNames, hfirst]
          cases hfound : lookup current name with
          | error halt => rfl
          | ok result =>
              cases result with
              | none => rfl
              | some entry =>
                  have hsame := henter (current, name) (by simp)
                    entry hfound
                  simp only [bind, Except.bind, hsame]
                  cases hchild : enter entry with
                  | error halt => rfl
                  | ok place =>
                      cases place with
                      | none => rfl
                      | some child =>
                          have hsub : ∀ t ∈ lookups lookup enter child
                              (next :: others), t ∈ lookups lookup enter
                                current (name :: next :: others) := by
                            intro t ht
                            rw [lookups, hfound]
                            simp only [hchild]
                            exact List.mem_cons_of_mem _ ht
                          exact ih (fun t ht => hlookup t (hsub t ht))
                            (fun t ht => henter t (hsub t ht))

/-- A resolved walk that loses one of its lookups fails. -/
theorem walkNames_lost
    {found : κ × ε}
    (hwalk : walkNames lookup enter current names = .ok (some found))
    (hlookup : ∀ t ∈ lookups lookup enter current names,
      lookup' t.1 t.2 = lookup t.1 t.2 ∨ lookup' t.1 t.2 = .ok none)
    (henter : ∀ t ∈ lookups lookup enter current names, ∀ entry,
      lookup t.1 t.2 = .ok (some entry) → enter' entry = enter entry)
    (hlost : ∃ t ∈ lookups lookup enter current names,
      lookup' t.1 t.2 = .ok none) :
    walkNames lookup' enter' current names = .ok none := by
  induction names generalizing current with
  | nil => simp at hwalk
  | cons name rest ih =>
      rcases hlookup (current, name) (by simp) with
        hsame | hnone
      · cases rest with
        | nil =>
            obtain ⟨t, ht, hnone⟩ := hlost
            obtain ⟨-, hfound⟩ := walkNames_singleton_eq_some.1 hwalk
            have hfirst : t = (current, name) := by
              rw [lookups, hfound] at ht
              simp only at ht
              split at ht <;> simpa using ht
            subst hfirst
            simp [hnone, bind, Except.bind]
        | cons next others =>
            obtain ⟨entry, child, hfound, hchild, hrest⟩ :=
              walkNames_cons_eq_some.1 hwalk
            have hall : lookups lookup enter current
                (name :: next :: others) = (current, name) ::
                  lookups lookup enter child (next :: others) := by
              rw [lookups, hfound]
              simp only [hchild]
            rw [hall] at hlookup henter hlost
            have hfirst : lookup' current name = .ok (some entry) :=
              hsame.trans hfound
            have hentry := henter (current, name) (by simp) entry hfound
            rw [walkNames, hfirst]
            simp only [bind, Except.bind, hentry, hchild]
            apply ih hrest
            · exact fun t ht => hlookup t (List.mem_cons_of_mem _ ht)
            · exact fun t ht => henter t (List.mem_cons_of_mem _ ht)
            · obtain ⟨t, ht, hnone⟩ := hlost
              rcases List.mem_cons.1 ht with rfl | hmem
              · rw [hfirst] at hnone
                cases hnone
              · exact ⟨t, hmem, hnone⟩
      · cases rest <;> simp [hnone, bind, Except.bind]

/-- A walk halts exactly when one of its lookups does, if entering never
halts. -/
theorem walkNames_eq_error
    {halt : Halt} (henter : ∀ entry, enter entry ≠ .error halt) :
    walkNames lookup enter current names = .error halt ↔
      ∃ t ∈ lookups lookup enter current names,
        lookup t.1 t.2 = .error halt := by
  induction names generalizing current with
  | nil => simp
  | cons name rest ih =>
      rw [lookups]
      cases hfound : lookup current name with
      | error other =>
          cases rest <;> simp [hfound, bind, Except.bind]
      | ok result =>
          cases result with
          | none => cases rest <;> simp [hfound, bind, Except.bind]
          | some entry =>
              cases rest with
              | nil =>
                  simp only [walkNames, hfound, bind, Except.bind]
                  cases enter entry with
                  | error other => simp [hfound]
                  | ok child => cases child <;> simp [hfound]
              | cons next others =>
                  simp only [walkNames, hfound, bind, Except.bind]
                  cases hchild : enter entry with
                  | error other =>
                      have hother := henter entry
                      rw [hchild] at hother
                      simpa [hfound] using hother
                  | ok child =>
                      cases child with
                      | none => simp [hfound]
                      | some child => simp [hfound, ih]

/-- What holds at the start and passes through every entered entry holds
wherever a walk looks a name up. -/
theorem lookups_induction
    {motive : κ → Prop}
    (hstart : motive current)
    (hstep : ∀ place name entry child, motive place →
      lookup place name = .ok (some entry) →
      enter entry = .ok (some child) → motive child) :
    ∀ t ∈ lookups lookup enter current names, motive t.1 := by
  induction names generalizing current with
  | nil => simp
  | cons name rest ih =>
      intro t ht
      rw [lookups] at ht
      rcases List.mem_cons.1 ht with rfl | hmem
      · exact hstart
      · cases hfound : lookup current name with
        | error halt => simp [hfound] at hmem
        | ok result =>
            cases result with
            | none => simp [hfound] at hmem
            | some entry =>
                cases hchild : enter entry with
                | error halt => simp [hfound, hchild] at hmem
                | ok place =>
                    cases place with
                    | none => simp [hfound, hchild] at hmem
                    | some child =>
                        simp only [hfound, hchild] at hmem
                        exact ih (hstep _ _ _ _ hstart hfound hchild) t hmem

end

end

/-! ## Cutting a path -/

theorem lastSlash_eq_none {path : CString} (h : lastSlash path = none) :
    slash ∉ path := by
  induction path with
  | nil => simp
  | cons c rest ih =>
      cases hrest : lastSlash rest with
      | some i => simp [lastSlash, hrest] at h
      | none =>
          by_cases hc : c = slash
          · simp [lastSlash, hrest, hc] at h
          · simp [ih hrest, Ne.symm hc]

theorem lastSlash_eq_some {path : CString} {i : ℕ}
    (h : lastSlash path = some i) :
    path = path.take i ++ slash :: path.drop (i + 1) ∧
      slash ∉ path.drop (i + 1) := by
  induction path generalizing i with
  | nil => simp [lastSlash] at h
  | cons c rest ih =>
      cases hrest : lastSlash rest with
      | some j =>
          simp only [lastSlash, hrest, Option.some.injEq] at h
          obtain ⟨hcut, htail⟩ := ih hrest
          rw [← h]
          refine ⟨?_, by simpa using htail⟩
          simpa using hcut
      | none =>
          by_cases hc : c = slash
          · simp only [lastSlash, hrest, hc, if_true,
              Option.some.injEq] at h
            rw [← h]
            exact ⟨by simp [hc], by simpa using lastSlash_eq_none hrest⟩
          · simp [lastSlash, hrest, hc] at h

theorem components_append_slash (first second : CString) :
    components (first ++ slash :: second) =
      components first ++ components second := by
  simp [components, List.splitOn_append_cons_self]

@[simp] theorem components_nil : components [] = [] := by
  simp [components]

theorem components_slash_cons (path : CString) :
    components (slash :: path) = components path := by
  simpa using components_append_slash [] path

theorem components_concat_slash (path : CString) :
    components (path ++ [slash]) = components path := by
  simpa using components_append_slash path []

theorem components_of_notMem {name : CString} (hname : name ≠ [])
    (hslash : slash ∉ name) : components name = [name] := by
  simp [components, List.splitOn_eq_singleton hslash, hname]

theorem components_stripSlashes (path : CString) :
    components (stripSlashes path) = components path := by
  unfold stripSlashes
  induction path using List.reverseRecOn with
  | nil => simp
  | append_singleton front c ih =>
      by_cases hc : c = slash
      · rw [List.rdropWhile_concat_pos _ _ _ (by simpa using hc), ih, hc,
          components_concat_slash]
      · rw [List.rdropWhile_concat_neg _ _ _ (by simpa using hc)]

theorem components_stripSlash (path : CString) :
    components (stripSlash path) = components path := by
  unfold stripSlash
  split_ifs with h
  · obtain ⟨front, rfl⟩ := List.getLast?_eq_some_iff.1 h
    rw [List.dropLast_concat, components_concat_slash]
  · rfl

theorem getLast?_stripSlashes (path : CString) :
    (stripSlashes path).getLast? ≠ some slash := by
  unfold stripSlashes
  induction path using List.reverseRecOn with
  | nil => simp
  | append_singleton front c ih =>
      by_cases hc : c = slash
      · rwa [List.rdropWhile_concat_pos _ _ _ (by simpa using hc)]
      · rw [List.rdropWhile_concat_neg _ _ _ (by simpa using hc)]
        simpa using hc

/-- The last piece of a path that does not end in a slash is a name. -/
theorem getLast?_splitOn {path : CString} (hpath : path ≠ [])
    (hend : path.getLast? ≠ some slash) :
    (path.splitOn slash).getLast? ≠ some [] := by
  cases hcut : lastSlash path with
  | none =>
      rw [List.splitOn_eq_singleton (lastSlash_eq_none hcut)]
      simpa using hpath
  | some i =>
      obtain ⟨hsplit, htail⟩ := lastSlash_eq_some hcut
      generalize path.drop (i + 1) = name at hsplit htail
      rw [hsplit, List.splitOn_append_cons_self,
        List.splitOn_eq_singleton htail]
      intro hlast
      have hname : name = [] := by simpa using hlast
      rw [hsplit, hname] at hend
      simp at hend

theorem findTokens_splitOn {κ ε : Type}
    (lookup : κ → CString → Outcome (Option ε))
    (enter : ε → Outcome (Option κ))
    (current : κ) {path : CString} (hpath : path ≠ [])
    (hend : path.getLast? ≠ some slash) :
    findTokens lookup enter current (path.splitOn slash) =
      walkNames lookup enter current (components path) :=
  findTokens_eq_walkNames lookup enter current (getLast?_splitOn hpath hend)

theorem splitOn_eq_nil_iff {path : CString} :
    path.splitOn slash = [[]] ↔ path = [] := by
  constructor
  · intro hsplit
    have hjoin : [slash].intercalate (path.splitOn slash) = path :=
      List.intercalate_splitOn slash
    rw [hsplit] at hjoin
    simpa using hjoin.symm
  · rintro rfl
    simp

/-- The first `strchr` on a path: either there is no slash, or the path is cut
at the first one. -/
theorem dropWhile_slash_cases (path : CString) :
    (path.dropWhile (· ≠ slash) = [] ∧ path.takeWhile (· ≠ slash) = path ∧
        slash ∉ path) ∨
      ∃ rest, path.dropWhile (· ≠ slash) = slash :: rest ∧
        path = path.takeWhile (· ≠ slash) ++ slash :: rest ∧
        slash ∉ path.takeWhile (· ≠ slash) := by
  have hwhole := List.takeWhile_append_dropWhile
    (p := fun c => decide (c ≠ slash)) (l := path)
  have hclean : slash ∉ path.takeWhile (· ≠ slash) := by
    intro hmem
    simpa using List.mem_takeWhile_imp hmem
  cases hdrop : path.dropWhile (· ≠ slash) with
  | nil =>
      rw [hdrop, List.append_nil] at hwhole
      rw [hwhole] at hclean
      exact .inl ⟨rfl, hwhole, hclean⟩
  | cons c rest =>
      have hc : c = slash := by
        have hhead := List.head?_dropWhile_not
          (fun c : UInt8 => decide (c ≠ slash)) path
        rw [hdrop] at hhead
        simpa using hhead
      subst hc
      rw [hdrop] at hwhole
      exact .inr ⟨rest, rfl, hwhole.symm, hclean⟩

/-- Scanning the characters looks up the pieces between the slashes. -/
theorem scanPath_eq_findTokens {κ ε : Type}
    (lookup : κ → CString → Outcome (Option ε))
    (enter : ε → Outcome (Option κ))
    {fuel : ℕ} (current : κ) {path : CString}
    (hfuel : path.length < fuel) :
    scanPath lookup enter fuel current path =
      findTokens lookup enter current (path.splitOn slash) := by
  induction fuel generalizing current path with
  | zero => omega
  | succ fuel ih =>
      by_cases hpath : path = []
      · simp [scanPath, findTokens, hpath]
      · rw [scanPath, if_neg hpath]
        rcases dropWhile_slash_cases path with
          ⟨hdrop, htake, hslash⟩ | ⟨rest, hdrop, hcut, hclean⟩
        · rw [hdrop, htake, List.splitOn_eq_singleton hslash]
          simp [findTokens, hpath]
        · rw [hdrop]
          generalize path.takeWhile (· ≠ slash) = token at hcut hclean
          have hsplit : path.splitOn slash = token :: rest.splitOn slash := by
            rw [hcut, List.splitOn_append_cons_self,
              List.splitOn_eq_singleton hclean]
            rfl
          have hlength : rest.length < fuel := by
            have hcount := congrArg List.length hcut
            simp only [List.length_append, List.length_cons] at hcount
            omega
          have hnone : rest.splitOn slash ≠ [] :=
            List.splitOn_ne_nil slash rest
          rw [hsplit, findTokens]
          simp only [List.tail_cons, ih _ hlength, reduceCtorEq, hnone,
            false_or, splitOn_eq_nil_iff]

theorem components_dropSlash (path : CString) :
    components (dropSlash path) = components path := by
  unfold dropSlash
  split_ifs with hhead
  · cases path with
    | nil => rfl
    | cons c rest =>
        simp only [List.head?_cons, Option.some.injEq] at hhead
        rw [hhead, List.tail_cons, components_slash_cons]
  · rfl

theorem length_dropSlash_le (path : CString) :
    (dropSlash path).length ≤ path.length := by
  unfold dropSlash
  split_ifs <;> simp

theorem length_stripSlash_le (path : CString) :
    (stripSlash path).length ≤ path.length := by
  unfold stripSlash
  split_ifs <;> simp

/-- The piece in front of a slash is no longer than the path. -/
theorem length_parent_le (path : CString) (i : ℕ) :
    (dropSlash ((stripSlash (dropSlash path)).take i)).length ≤
      (dropSlash path).length := by
  have hdrop := length_dropSlash_le ((stripSlash (dropSlash path)).take i)
  have htake := List.length_take_le' i (stripSlash (dropSlash path))
  have hstrip := length_stripSlash_le (dropSlash path)
  omega

theorem copyPath_eq_ok {path copy : CString} :
    copyPath path = .ok copy ↔
      (dropSlash path).length < 256 ∧ dropSlash path = copy := by
  unfold copyPath
  split_ifs with h <;> simp [h]

/-- A path of which nothing is left has no names. -/
theorem components_eq_nil_iff (path : CString) :
    components path = [] ↔ stripSlashes path = [] := by
  rw [← components_stripSlashes]
  constructor
  · intro hnone
    by_contra hne
    have hlast := getLast?_splitOn hne (getLast?_stripSlashes path)
    have htokens := List.splitOn_ne_nil slash (stripSlashes path)
    rw [List.getLast?_eq_some_getLast htokens] at hlast
    have hmem := List.getLast_mem htokens
    have hnil := List.filter_eq_nil_iff.1 hnone _ hmem
    simp only [ne_eq, decide_not, Bool.not_eq_true',
      decide_eq_false_iff_not, not_not] at hnil
    exact hlast (by rw [hnil])
  · intro hempty
    rw [hempty, components_nil]

theorem fileName_of_components {path : CString}
    (h : components path = []) : fileName path = [] := by
  have hstripped : components (stripSlash (dropSlash path)) = [] := by
    rw [components_stripSlash, components_dropSlash, h]
  unfold fileName
  simp only
  cases hcut : lastSlash (stripSlash (dropSlash path)) with
  | none =>
      by_contra hne
      rw [components_of_notMem hne (lastSlash_eq_none hcut)] at hstripped
      cases hstripped
  | some i =>
      obtain ⟨hsplit, htail⟩ := lastSlash_eq_some hcut
      by_contra hne
      rw [hsplit, components_append_slash,
        components_of_notMem hne htail] at hstripped
      simp at hstripped

/-- The file name of a path is its last component, and the piece in front of it
holds the others. -/
theorem components_fileName {path : CString} (hname : fileName path ≠ []) :
    (lastSlash (stripSlash (dropSlash path)) = none ∧
        components path = [fileName path]) ∨
      ∃ i, lastSlash (stripSlash (dropSlash path)) = some i ∧
        fileName path = (stripSlash (dropSlash path)).drop (i + 1) ∧
        components path =
          components ((stripSlash (dropSlash path)).take i) ++
            [fileName path] := by
  have hcomponents : components (stripSlash (dropSlash path)) =
      components path := by
    rw [components_stripSlash, components_dropSlash]
  unfold fileName at hname ⊢
  simp only at hname ⊢
  cases hcut : lastSlash (stripSlash (dropSlash path)) with
  | none =>
      simp only [hcut] at hname
      left
      refine ⟨rfl, ?_⟩
      rw [← hcomponents]
      exact components_of_notMem hname (lastSlash_eq_none hcut)
  | some i =>
      simp only [hcut] at hname
      obtain ⟨hsplit, htail⟩ := lastSlash_eq_some hcut
      refine .inr ⟨i, rfl, rfl, ?_⟩
      rw [← components_of_notMem hname htail, ← components_append_slash,
        ← hsplit, hcomponents]

theorem getLast?_components {path : CString} (hname : fileName path ≠ []) :
    (components path).getLast? = some (fileName path) := by
  rcases components_fileName hname with ⟨-, hnames⟩ | ⟨i, -, -, hnames⟩
  · rw [hnames]
    rfl
  · rw [hnames, List.getLast?_concat]

theorem drop_lastSlash_eq_nil {path : CString} {i : ℕ}
    (hcut : lastSlash path = some i) :
    path.drop (i + 1) = [] ↔ path.getLast? = some slash := by
  obtain ⟨hsplit, htail⟩ := lastSlash_eq_some hcut
  generalize path.drop (i + 1) = name at hsplit htail
  rw [hsplit]
  constructor
  · rintro rfl
    simp
  · intro hlast
    by_contra hne
    rw [List.getLast?_append, List.getLast?_cons,
      List.getLast?_eq_some_getLast hne] at hlast
    simp only [Option.getD_some, Option.some_or, Option.some.injEq] at hlast
    exact htail (hlast ▸ List.getLast_mem hne)

theorem stripSlash_getLast? (path : CString) :
    (stripSlash path).getLast? = some slash ↔ [slash, slash] <:+ path := by
  unfold stripSlash
  split_ifs with hlast
  · obtain ⟨front, rfl⟩ := List.getLast?_eq_some_iff.1 hlast
    rw [List.dropLast_concat, List.getLast?_eq_some_iff]
    constructor
    · rintro ⟨rest, rfl⟩
      exact ⟨rest, by simp⟩
    · rintro ⟨rest, hrest⟩
      refine ⟨rest, ?_⟩
      have hsame : rest ++ [slash] ++ [slash] = front ++ [slash] := by
        simpa using hrest
      exact (List.append_cancel_right hsame).symm
  · constructor
    · exact fun h => absurd h hlast
    · rintro ⟨rest, rfl⟩
      simp at hlast

theorem fileName_eq_nil_iff {path : CString} (hnames : components path ≠ []) :
    fileName path = [] ↔ [slash, slash] <:+ path := by
  have hsuffix : [slash, slash] <:+ dropSlash path ↔
      [slash, slash] <:+ path := by
    unfold dropSlash
    split_ifs with hhead
    · cases path with
      | nil => rfl
      | cons c rest =>
          simp only [List.head?_cons, Option.some.injEq] at hhead
          subst hhead
          rw [List.tail_cons, List.suffix_cons_iff]
          refine ⟨.inr, ?_⟩
          rintro (hwhole | hrest)
          · rw [← hwhole, components_slash_cons, components_slash_cons,
              components_nil] at hnames
            exact absurd rfl hnames
          · exact hrest
    · rfl
  rw [← hsuffix, ← stripSlash_getLast?]
  have hstripped : components (stripSlash (dropSlash path)) ≠ [] := by
    rwa [components_stripSlash, components_dropSlash]
  unfold fileName
  simp only
  cases hcut : lastSlash (stripSlash (dropSlash path)) with
  | none =>
      have hne : stripSlash (dropSlash path) ≠ [] := by
        intro hempty
        exact hstripped (by simp [hempty])
      simp only [hne, false_iff]
      exact fun hlast => lastSlash_eq_none hcut (List.mem_of_getLast? hlast)
  | some i => exact drop_lastSlash_eq_nil hcut

end ClOs

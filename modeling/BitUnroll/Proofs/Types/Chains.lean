import BitUnroll.Types

/-!
# Chains of named types

A name may stand for another name, so the type that a name stands for lies at the end of a chain. A
table has finitely many names. So a chain either ends, in a type that is no name or in an unknown
name, and then it goes through no name twice, or it returns to a name and never ends. Following a
type goes along its chain for `TypeTable.depth` steps, which is enough for the chains that are not
longer, and stops on a known name on all others, whether they return to a name or not.

## Main definitions

* `TypeTable.Leads`: a type leads to another one along known names.
* `TypeTable.Acyclic`: the chain of a type goes through no name twice.
* `TypeTable.EndsIn`: the chain of a type ends, and where.

## Main statements

* `TypeTable.EndsIn.acyclic`, `TypeTable.Acyclic.exists_endsIn`: the chains that end are those that
  go through no name twice.
* `TypeTable.follow_exact`: which type is found.
-/

namespace BitUnroll.TypeTable

/-- Following a type along known names leads to another type. -/
inductive Leads (table : TypeTable) : Ty → List String → Ty → Prop
  | here (ty : Ty) : Leads table ty [] ty
  | step {name : String} {names : List String} {ty last : Ty}
    (hname : table.lookup? name = some ty) (rest : Leads table ty names last) :
    Leads table (.named name) (name :: names) last

/-- Following a type never goes through a name twice. -/
def Acyclic (table : TypeTable) (ty : Ty) : Prop :=
  ∀ names last, table.Leads ty names last → names.Nodup

/-- A type leads along known names to a type that is no name, or to an unknown name. -/
structure EndsIn (table : TypeTable) (ty : Ty) (names : List String) (last : Ty) : Prop where
  leads : table.Leads ty names last
  stops : table.next? last = none

variable {table : TypeTable} {ty mid last : Ty} {name : String} {names names' : List String}

/-! ## Parts of chains -/

/-- A chain can be left after some of its names. -/
theorem Leads.split {front back : List String} (h : table.Leads ty (front ++ back) last) :
    ∃ mid, table.Leads ty front mid ∧ table.Leads mid back last := by
  induction front generalizing ty with
  | nil => exact ⟨ty, .here ty, h⟩
  | cons name front ih =>
    cases h with
    | step hname rest =>
      obtain ⟨mid, hfront, hback⟩ := ih rest
      exact ⟨mid, .step hname hfront, hback⟩

/-- The names on a chain are known, and the chain goes on from each of them. -/
theorem Leads.exists_of_mem (h : table.Leads ty names last) (hname : name ∈ names) :
    ∃ front back, names = front ++ name :: back ∧
      table.Leads (.named name) (name :: back) last ∧ (table.lookup? name).isSome := by
  obtain ⟨front, back, rfl⟩ := List.append_of_mem hname
  obtain ⟨mid, -, hback⟩ := h.split
  have hknown : mid = .named name ∧ (table.lookup? name).isSome := by
    cases hback with
    | step hnext _ => exact ⟨rfl, Option.isSome_of_mem hnext⟩
  exact ⟨front, back, rfl, hknown.1 ▸ hback, hknown.2⟩

/-- What a type leads to lies on the way to the end of its chain. -/
theorem EndsIn.exists_rest (h : table.EndsIn ty names last) (hmid : table.Leads ty names' mid) :
    ∃ rest, names = names' ++ rest ∧ table.EndsIn mid rest last := by
  induction hmid generalizing names with
  | here ty => exact ⟨names, rfl, h⟩
  | @step name names' next mid hname _ ih =>
    obtain ⟨hleads, hstops⟩ := h
    cases hleads with
    | here => cases hstops.symm.trans hname
    | step hname' hnext =>
      cases hname.symm.trans hname'
      obtain ⟨rest, rfl, hrest⟩ := ih ⟨hnext, hstops⟩
      exact ⟨rest, rfl, hrest⟩

/-! ## Chains that end -/

/-- A chain that ends goes through no name twice: from the second visit on it would be as long as
from the first one on. -/
theorem EndsIn.nodup (h : table.EndsIn ty names last) : names.Nodup := by
  obtain ⟨hleads, hstops⟩ := h
  induction hleads with
  | here => exact List.nodup_nil
  | @step name names next last hname rest ih =>
    refine List.nodup_cons.2 ⟨fun hagain => ?_, ih hstops⟩
    obtain ⟨front, back, hnames, hback, -⟩ := rest.exists_of_mem hagain
    obtain ⟨more, hmore, -⟩ := EndsIn.exists_rest ⟨hback, hstops⟩ (.step hname rest)
    have hback_eq : back = names ++ more := (List.cons.inj hmore).2
    have hlength := congrArg List.length hnames
    rw [hback_eq, List.length_append, List.length_cons, List.length_append] at hlength
    omega

/-- No part of a chain that ends goes through a name twice. -/
theorem EndsIn.acyclic (h : table.EndsIn ty names last) : table.Acyclic ty := by
  intro names' mid hmid
  obtain ⟨rest, rfl, -⟩ := h.exists_rest hmid
  exact (List.nodup_append.1 h.nodup).1

/-! ## Following -/

theorem followFor_succ (table : TypeTable) (steps : Nat) (ty : Ty) :
    table.followFor (steps + 1) ty =
      match table.next? ty with
      | some next => table.followFor steps next
      | none => ty := rfl

theorem followFor_of_next?_eq_none (h : table.next? ty = none) (steps : Nat) :
    table.followFor steps ty = ty := by
  cases steps with
  | zero => rfl
  | succ steps => rw [followFor_succ, h]

/-- Following goes along a chain, one name with each step. -/
theorem Leads.followFor_add (h : table.Leads ty names last) (steps : Nat) :
    table.followFor (names.length + steps) ty = table.followFor steps last := by
  induction h with
  | here => rw [List.length_nil, Nat.zero_add]
  | @step name names next last hname _ ih =>
    have hnext : table.next? (.named name) = some next := hname
    rw [List.length_cons, Nat.add_right_comm, followFor_succ, hnext]
    exact ih

/-- Following goes along all of its steps, unless the chain ends before. -/
theorem exists_leads_followFor (table : TypeTable) (steps : Nat) (ty : Ty) :
    ∃ names, table.Leads ty names (table.followFor steps ty) ∧ names.length ≤ steps ∧
      (names.length = steps ∨ table.next? (table.followFor steps ty) = none) := by
  induction steps generalizing ty with
  | zero => exact ⟨[], .here ty, Nat.le_refl 0, .inl rfl⟩
  | succ steps ih =>
    cases hnext : table.next? ty with
    | none =>
      rw [followFor_of_next?_eq_none hnext]
      exact ⟨[], .here ty, Nat.zero_le _, .inr hnext⟩
    | some next =>
      cases ty with
      | named name =>
        obtain ⟨names, hleads, hlength, hend⟩ := ih next
        rw [followFor_succ, hnext]
        exact ⟨name :: names, .step hnext hleads, Nat.succ_le_succ hlength,
          hend.imp_left (congrArg (· + 1))⟩
      | bool | unsigned | signed | plain | integer | natural | empty => cases hnext

/-- A chain that goes through no name twice ends, since there are no more names on it than in the
table. -/
theorem Acyclic.exists_endsIn (h : table.Acyclic ty) :
    ∃ names last, table.EndsIn ty names last := by
  obtain ⟨names, hleads, -, hlength | hstops⟩ :=
    exists_leads_followFor table (table.entries.keys.length + 1) ty
  · have hsubset : names ⊆ table.entries.keys := fun name hname => by
      obtain ⟨-, -, -, -, hknown⟩ := hleads.exists_of_mem hname
      exact Std.TreeMap.mem_keys.2 (Std.TreeMap.mem_iff_isSome_getElem?.2 hknown)
    have hfew := (h names _ hleads).length_le_of_subset hsubset
    omega
  · exact ⟨names, _, hleads, hstops⟩

theorem EndsIn.follow_eq (h : table.EndsIn ty names last) (hlength : names.length ≤ depth) :
    table.follow ty = last := by
  obtain ⟨steps, hsteps⟩ := Nat.exists_eq_add_of_le hlength
  rw [follow, hsteps, h.leads.followFor_add, followFor_of_next?_eq_none h.stops]

/-- Following stops on the name that it has reached when its steps are used up. -/
theorem Leads.follow_eq (h : table.Leads ty names last) (hlength : depth < names.length) :
    table.follow ty = .named names[depth] := by
  have hnames : names = names.take depth ++ names[depth] :: names.drop (depth + 1) := by
    rw [← List.drop_eq_getElem_cons hlength, List.take_append_drop]
  rw [hnames] at h
  obtain ⟨mid, hfront, hback⟩ := h.split
  have hmid : mid = .named names[depth] := by
    cases hback with
    | step => rfl
  have hfollow := hfront.followFor_add 0
  rw [List.length_take_of_le (Nat.le_of_lt hlength)] at hfollow
  rw [← hmid]
  exact hfollow

/-- On a chain that does not end, following stops on a name. -/
theorem exists_follow_eq_named (h : ¬table.Acyclic ty) : ∃ name, table.follow ty = .named name := by
  obtain ⟨names, hleads, -⟩ := exists_leads_followFor table depth ty
  cases hfollow : table.follow ty with
  | named name => exact ⟨name, rfl⟩
  | bool | unsigned | signed | plain | integer | natural | empty =>
    refine absurd (EndsIn.acyclic ⟨hleads, ?_⟩) h
    rw [← follow, hfollow]
    rfl

/-! ## Ladders -/

/-- Where a ladder starts: at the first of its names, or at the type if there is none. -/
def foot (ty : Ty) : List String → Ty
  | [] => ty
  | name :: _ => .named name

/-- A table in which each of some names stands for the next one, and the last one for a type. -/
def ladder (ty : Ty) : List String → TypeTable
  | [] => .empty
  | name :: rest => (ladder ty rest).insert name (foot ty rest)

/-- A chain stays as it is when other names are defined. -/
theorem Leads.insert (h : table.Leads ty names last) (hname : name ∉ names) (new : Ty) :
    (table.insert name new).Leads ty names last := by
  induction h with
  | here ty => exact .here ty
  | @step other names next last hnext _ ih =>
    obtain ⟨hother, hnames⟩ := not_or.1 (mt List.mem_cons.2 hname)
    refine .step ?_ (ih hnames)
    rw [lookup?_insert, if_neg hother]
    exact hnext

/-- The chain of a ladder of different names goes through all of them. -/
theorem leads_ladder (ty : Ty) (hnames : names.Nodup) :
    (ladder ty names).Leads (foot ty names) names ty := by
  induction names with
  | nil => exact .here ty
  | cons name rest ih =>
    obtain ⟨hname, hrest⟩ := List.nodup_cons.1 hnames
    refine .step ?_ ((ih hrest).insert hname _)
    rw [ladder, lookup?_insert, if_pos rfl]

/-- **Named types are found up to sixty-four names deep.** Following a type goes through no name
twice exactly if its chain ends, in a type that is no name or in an unknown name. If it ends behind
at most `depth` known names, then the type at the end is found, with its width, its sign, and
whether it is Boolean. If it ends behind more of them, the search stops on the one behind the first
`depth`, which has no bits. If following a type goes through a name twice, the search stops on a
name as well, and again there are no bits. -/
theorem follow_exact (table : TypeTable) (ty : Ty) :
    (table.Acyclic ty ↔ ∃ names last, table.EndsIn ty names last) ∧
    (∀ names last, table.EndsIn ty names last →
      (names.length ≤ depth → table.follow ty = last ∧ table.width ty = last.ownWidth ∧
        table.isSigned ty = last.ownSigned ∧ (table.isBool ty = true ↔ last = .bool)) ∧
      ∀ h : depth < names.length, table.follow ty = .named names[depth] ∧
        table.width ty = 0 ∧ table.isSigned ty = false ∧ table.isBool ty = false) ∧
    (¬table.Acyclic ty → (∃ name, table.follow ty = .named name) ∧ table.width ty = 0) := by
  refine ⟨⟨Acyclic.exists_endsIn, fun ⟨_, _, hend⟩ => hend.acyclic⟩, fun names last hend => ?_,
    fun hcyclic => ?_⟩
  · refine ⟨fun hlength => ?_, fun hlength => ?_⟩
    · have hfollow := hend.follow_eq hlength
      simp [width, isSigned, isBool, hfollow]
    · have hfollow := hend.leads.follow_eq hlength
      simp [width, isSigned, isBool, hfollow, Ty.ownWidth, Ty.ownSigned]
  · obtain ⟨name, hfollow⟩ := exists_follow_eq_named hcyclic
    refine ⟨⟨name, hfollow⟩, ?_⟩
    rw [width, hfollow]
    rfl

/-- Some different names. -/
def marks (count : Nat) : List String :=
  (List.range count).map fun i => String.ofList (List.replicate (i + 1) 't')

theorem nodup_marks (count : Nat) : (marks count).Nodup :=
  List.pairwise_map.2 (List.nodup_range.imp fun hne heq =>
    hne (by simpa using congrArg String.length heq))

/-- The longest chain whose end is found. -/
theorem follow_exact_longest :
    let names := marks 64
    let table := ladder (.signed 8) names
    table.EndsIn (foot (.signed 8) names) names (.signed 8) ∧ names.length ≤ depth ∧
      table.Acyclic (foot (.signed 8) names) ∧ table.follow (foot (.signed 8) names) = .signed 8 ∧
      table.width (foot (.signed 8) names) = 8 ∧
      table.isSigned (foot (.signed 8) names) = true := by
  intro names table
  have hend : table.EndsIn (foot (.signed 8) names) names (.signed 8) :=
    ⟨leads_ladder (.signed 8) (nodup_marks 64), rfl⟩
  have hlength : names.length ≤ depth := by simp [names, marks, depth]
  obtain ⟨hacyclic, hfound, -⟩ := follow_exact table (foot (.signed 8) names)
  obtain ⟨hfollow, hwidth, hsigned, -⟩ := (hfound _ _ hend).1 hlength
  exact ⟨hend, hlength, hacyclic.2 ⟨_, _, hend⟩, hfollow, hwidth, hsigned⟩

/-- A chain of one name more, which goes through no name twice and ends in the Boolean type. Its end
is not found, and there are no bits. -/
theorem exists_end_not_found : ∃ table ty names,
    Acyclic table ty ∧ table.EndsIn ty names .bool ∧ table.follow ty ≠ .bool ∧
      table.isBool ty = false ∧ table.width ty = 0 ∧ Ty.ownWidth .bool = 1 := by
  have hend : (ladder .bool (marks 65)).EndsIn (foot .bool (marks 65)) (marks 65) .bool :=
    ⟨leads_ladder .bool (nodup_marks 65), rfl⟩
  have hlength : depth < (marks 65).length := by simp [marks, depth]
  have hfollow := hend.leads.follow_eq hlength
  refine ⟨_, _, _, hend.acyclic, hend, ?_⟩
  simp only [width, isBool, hfollow]
  exact ⟨by simp, rfl, rfl, rfl⟩

end BitUnroll.TypeTable

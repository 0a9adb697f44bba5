import MqssdModel.BPlusTree.Coverage

namespace MqssdModel.BPlusTree.TestFiles

open Data.TotalRun Machine Boot History Reading GetRun Coverage

/-- The outcomes of `get_operation`. -/
inductive Operation
  | insert
  | remove
  | search

/-- What `generate_opeartion` draws for a line; `key` is used for `r` only. -/
structure Draw where
  operation : Operation
  curKey : ℕ
  key : ℕ

/-- A number as `%d` writes it. -/
def digits (k : ℕ) : List Char := Nat.toDigits 10 k

def generateNormalData (keyList : List ℕ) : List Char :=
  keyList.flatMap fun key ↦ 'i' :: ' ' :: (digits key ++ ['\n'])

def Draw.line (d : Draw) : List Char :=
  match d.operation with
  | .insert => 'i' :: ' ' :: (digits d.curKey ++ ['\n'])
  | .search => 's' :: ' ' :: (digits d.curKey ++ ['\n'])
  | .remove =>
    let (left, right) := if d.curKey ≤ d.key then (d.curKey, d.key) else (d.key, d.curKey)
    'r' :: ' ' :: (digits left ++ ' ' :: (digits right ++ ['\n']))

def generateOpeartion (draws : List Draw) : List Char := draws.flatMap Draw.line ++ ['q', '\n']

/-- The file `testcase`: the second part is appended to the first. -/
def testcase (keyList : List ℕ) (draws : List Draw) : List Char :=
  generateNormalData keyList ++ generateOpeartion draws

/-- What the test makes of a line: the right end of a range is passed over. -/
def Draw.command (d : Draw) : Command :=
  match d.operation with
  | .insert => .insert d.curKey
  | .search => .search d.curKey
  | .remove => .remove (min d.curKey d.key : ℕ)

def commands (keyList : List ℕ) (draws : List Draw) : List Command :=
  keyList.map (fun key ↦ .insert key) ++ draws.map Draw.command

variable {op c : Char} {k r N : ℕ} {text rest : List Char} {cmds : List Command}

theorem digits_ne_nil : digits k ≠ [] := Nat.toDigits_ne_nil

theorem isDigit_digits : ∀ c ∈ digits k, c.isDigit = true :=
  fun _ ↦ Nat.isDigit_of_mem_toDigits (by norm_num) le_rfl

theorem not_isspace_of_isDigit (h : c.isDigit = true) : isspace c = false := by
  simp only [Char.isDigit, ge_iff_le, Bool.and_eq_true, decide_eq_true_eq, UInt32.le_iff_toNat_le]
    at h
  have hlow : 48 ≤ c.toNat := h.1
  have hne : c ≠ ' ' := by
    rintro rfl
    exact absurd hlow (by decide)
  simp only [isspace, hne, decide_false, Bool.false_or, Bool.and_eq_false_iff,
    decide_eq_false_iff_not]
  omega

theorem sign_of_isDigit (h : c.isDigit = true) : sign (c :: rest) = (false, c :: rest) := by
  unfold sign
  split
  · rename_i heq
    cases heq
    exact absurd h (by decide)
  · rename_i heq
    cases heq
    exact absurd h (by decide)
  · rfl

/-- Digits in front of something else are a number. -/
theorem scanInt_append {ds : List Char} (hne : ds ≠ []) (hds : ∀ c ∈ ds, c.isDigit = true)
    (hrest : ∀ c ∈ rest.head?, c.isDigit = false) :
    scanInt (ds ++ rest) = (some (wrap 32 (strtol false ds)), rest) := by
  have htake : rest.takeWhile Char.isDigit = [] := by
    cases rest with
    | nil => rfl
    | cons c cs => exact List.takeWhile_cons_of_neg (by simp [hrest c rfl])
  have hdrop : rest.dropWhile Char.isDigit = rest := by
    cases rest with
    | nil => rfl
    | cons c cs => exact List.dropWhile_cons_of_neg (by simp [hrest c rfl])
  obtain ⟨d, ds', rfl⟩ := List.exists_cons_of_ne_nil hne
  have hd := hds d List.mem_cons_self
  have hskip : (d :: ds' ++ rest).dropWhile isspace = d :: ds' ++ rest :=
    List.dropWhile_cons_of_neg (by simp [not_isspace_of_isDigit hd])
  have hsign : sign (d :: ds' ++ rest) = (false, d :: ds' ++ rest) := sign_of_isDigit hd
  unfold scanInt
  rw [hskip, hsign]
  dsimp only
  rw [List.takeWhile_append_of_pos hds, List.dropWhile_append_of_pos hds, htake, hdrop,
    List.append_nil, if_neg hne]

/-- A number is read back. -/
theorem scanInt_digits (hk : k < 2 ^ 31) (hrest : ∀ c ∈ rest.head?, c.isDigit = false) :
    scanInt (digits k ++ rest) = (some (k : ℤ), rest) := by
  have hvalue : strtol false (digits k) = k := by
    rw [strtol, digits, Nat.ofDigitChars_ten_toDigits]
    simp only [Bool.false_eq_true, if_false]
    omega
  rw [scanInt_append digits_ne_nil isDigit_digits hrest, hvalue,
    wrap_eq_iff.mpr (by omega)]

theorem fscanf_space (hc : isspace c = true) : fscanf (c :: text) = fscanf text := by
  rw [fscanf, fscanf, List.dropWhile_cons_of_pos hc]

theorem fscanf_cons (hop : isspace op = false) :
    fscanf (op :: text) = some (op, scanInt (text.dropWhile isspace)) := by
  rw [fscanf, List.dropWhile_cons_of_neg (by simp [hop])]

theorem fscanf_command (hop : isspace op = false) (hk : k < 2 ^ 31)
    (hrest : ∀ c ∈ rest.head?, c.isDigit = false) :
    fscanf (op :: ' ' :: (digits k ++ rest)) = some (op, some (k : ℤ), rest) := by
  obtain ⟨d, ds, hd⟩ := List.exists_cons_of_ne_nil (digits_ne_nil (k := k))
  have hdigit : d.isDigit = true := isDigit_digits d (hd ▸ List.mem_cons_self)
  have hskip : (' ' :: (digits k ++ rest)).dropWhile isspace = digits k ++ rest := by
    rw [List.dropWhile_cons_of_pos (by decide), hd]
    exact List.dropWhile_cons_of_neg (by simp [not_isspace_of_isDigit hdigit])
  rw [fscanf_cons hop, hskip, scanInt_digits hk hrest]

/-- The file is scanned as the commands `cmds` and at most `N` items. -/
def Reads (text : List Char) (cmds : List Command) (N : ℕ) : Prop :=
  ∀ k, ∃ items, Scans text k items ∧ items.filterMap command = cmds ∧
    (∀ item ∈ items, InArray item) ∧ items.length ≤ N

theorem scans_space {k : Option ℤ} {items : List (Char × Option ℤ)} (hc : isspace c = true)
    (h : Scans text k items) : Scans (c :: text) k items := by
  cases h with
  | eof h => exact .eof ((fscanf_space hc).trans h)
  | quit h => exact .quit ((fscanf_space hc).trans h)
  | item h hop hrest => exact .item ((fscanf_space hc).trans h) hop hrest

theorem Reads.space (hc : isspace c = true) (h : Reads text cmds N) : Reads (c :: text) cmds N := by
  intro k
  obtain ⟨items, hscans, hitems⟩ := h k
  exact ⟨items, scans_space hc hscans, hitems⟩

theorem reads_quit : Reads ['q', '\n'] [] 0 := by
  intro k
  refine ⟨[], .quit (fscanf_cons (by decide)), rfl, fun item hitem ↦ ?_, le_rfl⟩
  exact absurd hitem List.not_mem_nil

/-- A command and what follows it. -/
theorem Reads.command {cmd : Command} (op : Char) (hop : op ∈ ['i', 's', 'r'])
    (hcmd : Coverage.command (op, some (k : ℤ)) = some cmd) (hk : k < 2147483640)
    (hrest : ∀ c ∈ rest.head?, c.isDigit = false) (h : Reads rest cmds N) :
    Reads (op :: ' ' :: (digits k ++ rest)) (cmd :: cmds) (N + 1) := by
  have hspace : isspace op = false := by
    simp only [List.mem_cons, List.not_mem_nil, or_false] at hop
    rcases hop with rfl | rfl | rfl <;> decide
  have hquit : op ≠ 'q' := by
    rintro rfl
    exact absurd hop (by decide)
  have hbit : HasBit k := by
    have hsize : hugeSize = 268435455 := rfl
    exact ⟨Int.natCast_nonneg k, by omega⟩
  intro k'
  obtain ⟨items, hscans, hcmds, hitems, hlen⟩ := h (some (k : ℤ))
  refine ⟨(op, some (k : ℤ)) :: items, .item (fscanf_command hspace (by omega) hrest) hquit hscans,
    ?_, ?_, by rw [List.length_cons]; omega⟩
  · rw [List.filterMap_cons_some hcmd, hcmds]
  · intro item hitem
    rcases List.mem_cons.mp hitem with rfl | hitem
    · exact fun _ ↦ ⟨k, rfl, hbit⟩
    · exact hitems item hitem

/-- A line starts with a letter. -/
def Starts (text : List Char) : Prop := ∃ c ∈ ['i', 's', 'r', 'q'], text.head? = some c

theorem Starts.scanInt (h : Starts text) : Coverage.scanInt text = (none, text) := by
  obtain ⟨c, hc, hhead⟩ := h
  cases text with
  | nil => cases hhead
  | cons c' rest =>
    cases hhead
    simp only [List.mem_cons, List.not_mem_nil, or_false] at hc
    rcases hc with rfl | rfl | rfl | rfl <;> rfl

theorem Starts.skip (h : Starts text) : ('\n' :: text).dropWhile isspace = text := by
  obtain ⟨c, hc, hhead⟩ := h
  cases text with
  | nil => cases hhead
  | cons c' rest =>
    cases hhead
    simp only [List.mem_cons, List.not_mem_nil, or_false] at hc
    rcases hc with rfl | rfl | rfl | rfl <;> rfl

/-- The right end of a range is scanned as its first digit, which is no command, and the number of
the other digits. If there are none, the letter of the next line is in the way of a number. -/
theorem Reads.stray (hstarts : Starts rest) (h : Reads rest cmds N) :
    Reads (' ' :: (digits r ++ '\n' :: rest)) cmds (N + 1) := by
  intro k
  obtain ⟨d, ds, hd⟩ := List.exists_cons_of_ne_nil (digits_ne_nil (k := r))
  have hdigits : ∀ c ∈ d :: ds, c.isDigit = true := hd ▸ isDigit_digits
  have hdigit := hdigits d List.mem_cons_self
  have hop : ∀ c ∈ ['i', 's', 'r', 'q'], d ≠ c := by
    rintro c hc rfl
    simp only [List.mem_cons, List.not_mem_nil, or_false] at hc
    rcases hc with rfl | rfl | rfl | rfl <;> exact absurd hdigit (by decide)
  have hspace := not_isspace_of_isDigit hdigit
  -- the first digit is scanned with some value for `k`, and then the next line
  suffices hfirst : ∃ scanned items, fscanf (d :: (ds ++ '\n' :: rest)) = some (d, scanned) ∧
      Scans scanned.2 (scanned.1.or k) items ∧ items.filterMap Coverage.command = cmds ∧
      (∀ item ∈ items, InArray item) ∧ items.length ≤ N by
    obtain ⟨scanned, items, hfscanf, hscans, hcmds, hitems, hlen⟩ := hfirst
    rw [hd]
    refine ⟨(d, scanned.1.or k) :: items,
      scans_space (by decide) (.item hfscanf (hop 'q' (by decide)) hscans), ?_, ?_,
      by rw [List.length_cons]; omega⟩
    · rw [List.filterMap_cons_none, hcmds]
      simp [Coverage.command, hop]
    · intro item hitem
      rcases List.mem_cons.mp hitem with rfl | hitem
      · exact fun hmem ↦ absurd rfl (hop d (by simp at hmem ⊢; tauto))
      · exact hitems item hitem
  cases ds with
  | nil =>
    obtain ⟨items, hscans, hitems⟩ := h k
    refine ⟨(none, rest), items, ?_, hscans, hitems⟩
    rw [fscanf_cons hspace, List.nil_append, hstarts.skip, hstarts.scanInt]
  | cons e es =>
    have hes : ∀ c ∈ e :: es, c.isDigit = true := fun c hc ↦ hdigits c (List.mem_cons_of_mem d hc)
    have hskip : (e :: es ++ '\n' :: rest).dropWhile isspace = e :: es ++ '\n' :: rest :=
      List.dropWhile_cons_of_neg (by simp [not_isspace_of_isDigit (hes e List.mem_cons_self)])
    have hnumber : scanInt (e :: es ++ '\n' :: rest) =
        (some (wrap 32 (strtol false (e :: es))), '\n' :: rest) :=
      scanInt_append (List.cons_ne_nil e es) hes (by rintro c ⟨⟩; rfl)
    obtain ⟨items, hscans, hitems⟩ := h.space (c := '\n') (by decide)
      (some (wrap 32 (strtol false (e :: es))))
    refine ⟨(some (wrap 32 (strtol false (e :: es))), '\n' :: rest), items, ?_, hscans, hitems⟩
    rw [fscanf_cons hspace, hskip, hnumber]

theorem Reads.mono {N' : ℕ} (h : Reads text cmds N) (hN : N ≤ N') : Reads text cmds N' := by
  intro k
  obtain ⟨items, hscans, hcmds, hitems, hlen⟩ := h k
  exact ⟨items, hscans, hcmds, hitems, hlen.trans hN⟩

theorem Reads.line {cmd : Command} (op : Char) (hop : op ∈ ['i', 's', 'r'])
    (hcmd : Coverage.command (op, some (k : ℤ)) = some cmd) (hk : k < 2147483640)
    (h : Reads rest cmds N) :
    Reads (op :: ' ' :: (digits k ++ ['\n']) ++ rest) (cmd :: cmds) (N + 1) := by
  have hline := (h.space (c := '\n') (by decide)).command op hop hcmd hk (by rintro c ⟨⟩; rfl)
  simpa using hline

theorem Reads.range {left right : ℕ} (hleft : left < 2147483640) (hstarts : Starts rest)
    (h : Reads rest cmds N) :
    Reads ('r' :: ' ' :: (digits left ++ ' ' :: (digits right ++ ['\n'])) ++ rest)
      (.remove left :: cmds) (N + 2) := by
  have hline := (h.stray (r := right) hstarts).command 'r' (by decide) rfl hleft
    (by rintro c ⟨⟩; rfl)
  simpa using hline

theorem starts_generateOpeartion (draws : List Draw) : Starts (generateOpeartion draws) := by
  cases draws with
  | nil => exact ⟨'q', by decide, rfl⟩
  | cons d draws =>
    obtain ⟨operation, curKey, key⟩ := d
    cases operation with
    | insert => exact ⟨'i', by decide, rfl⟩
    | search => exact ⟨'s', by decide, rfl⟩
    | remove => exact ⟨'r', by decide, rfl⟩

theorem reads_generateOpeartion {draws : List Draw}
    (hdraws : ∀ d ∈ draws, d.curKey < 2147483640 ∧ d.key < 2147483640) :
    Reads (generateOpeartion draws) (draws.map Draw.command) (2 * draws.length) := by
  induction draws with
  | nil => exact reads_quit
  | cons d draws ih =>
    have hrest := ih fun d hd ↦ hdraws d (List.mem_cons_of_mem _ hd)
    have htext : generateOpeartion (d :: draws) = d.line ++ generateOpeartion draws := by
      rw [generateOpeartion, List.flatMap_cons, List.append_assoc, generateOpeartion]
    obtain ⟨hcur, hkey⟩ := hdraws d List.mem_cons_self
    rw [htext, List.map_cons, List.length_cons, Nat.mul_succ]
    obtain ⟨operation, curKey, key⟩ := d
    cases operation with
    | insert => exact (hrest.line 'i' (by decide) rfl hcur).mono (by omega)
    | search => exact (hrest.line 's' (by decide) rfl hcur).mono (by omega)
    | remove =>
      have hstarts := starts_generateOpeartion draws
      by_cases hle : curKey ≤ key
      · have hline : Draw.line ⟨.remove, curKey, key⟩ =
            'r' :: ' ' :: (digits curKey ++ ' ' :: (digits key ++ ['\n'])) := by
          simp [Draw.line, hle]
        rw [hline, Draw.command, min_eq_left hle]
        exact hrest.range hcur hstarts
      · have hline : Draw.line ⟨.remove, curKey, key⟩ =
            'r' :: ' ' :: (digits key ++ ' ' :: (digits curKey ++ ['\n'])) := by
          simp [Draw.line, hle]
        rw [hline, Draw.command, min_eq_right (Nat.le_of_not_le hle)]
        exact hrest.range hkey hstarts

theorem reads_testcase {keyList : List ℕ} {draws : List Draw}
    (hkeys : ∀ key ∈ keyList, key < 2147483640)
    (hdraws : ∀ d ∈ draws, d.curKey < 2147483640 ∧ d.key < 2147483640) :
    Reads (testcase keyList draws) (commands keyList draws)
      (keyList.length + 2 * draws.length) := by
  induction keyList with
  | nil => exact (reads_generateOpeartion hdraws).mono (by omega)
  | cons key keyList ih =>
    have hrest := ih fun key hkey ↦ hkeys key (List.mem_cons_of_mem _ hkey)
    have htext : testcase (key :: keyList) draws =
        'i' :: ' ' :: (digits key ++ ['\n']) ++ testcase keyList draws := by
      rw [testcase, generateNormalData, List.flatMap_cons, List.append_assoc, testcase,
        generateNormalData]
    rw [htext]
    exact (hrest.line 'i' (by decide) rfl (hkeys key List.mem_cons_self)).mono
      (by rw [List.length_cons]; omega)

theorem insert_zero_not_mem {keyList : List ℕ} {draws : List Draw}
    (hkeys : ∀ key ∈ keyList, 1 ≤ key) (hdraws : ∀ d ∈ draws, 1 ≤ d.curKey) : Command.insert 0 ∉ commands keyList draws := by
  intro hmem
  rcases List.mem_append.mp hmem with hmem | hmem
  · obtain ⟨key, hkey, heq⟩ := List.mem_map.mp hmem
    have hpos := hkeys key hkey
    rw [Command.insert.injEq] at heq
    omega
  · obtain ⟨d, hd, heq⟩ := List.mem_map.mp hmem
    have hpos := hdraws d hd
    obtain ⟨operation, curKey, key⟩ := d
    cases operation with
    | insert =>
      rw [Draw.command, Command.insert.injEq] at heq
      dsimp only at heq hpos
      omega
    | search => cases heq
    | remove => cases heq

end MqssdModel.BPlusTree.TestFiles

import ResourceServer.Uploads.Contents
import ResourceServer.Uploads.PathStrings

/-!
# Where uploads go

The place of a request's file and of the directories made for it. Nothing looks at the
name of a request: one with a root of its own replaces the static directory, or a part of
it, and one that climbs leaves it. A relative name that stays inside does not.
-/

namespace ResourceServer

open FileStream

/-- The directory the uploads belong in. -/
def staticDir (fmt : PathFormat) (r : String) : String :=
  pathAppend fmt (pathAppend fmt r "bin") "static"

section Static

variable {fmt : PathFormat} {r name : String}

/-- Whatever it lies under, the static directory ends in its name, behind a separator and at least
the name of the directory above it. -/
theorem exists_staticDir (fmt : PathFormat) (r : String) : ∃ above : List Char,
    3 ≤ above.length ∧
      (staticDir fmt r).toList = above ++ fmt.preferredSeparator :: "static".toList := by
  have hbin : (fmt.lexicalChars "bin".toList).Relative := by cases fmt <;> decide +kernel
  have hstatic : (fmt.lexicalChars "static".toList).Relative := by cases fmt <;> decide +kernel
  have hn : fmt.isSeparator 'n' = false := by cases fmt <;> decide
  obtain ⟨above, habove⟩ := PathFormat.suffix_append (p := r.toList) hbin
  have hconcat : fmt.append r.toList "bin".toList = (above ++ ['b', 'i']) ++ ['n'] := by
    rw [← habove, List.append_assoc]
    rfl
  refine ⟨fmt.append r.toList "bin".toList, ?_, ?_⟩
  · rw [hconcat]
    simp
  · rw [staticDir, pathAppend, pathAppend, String.toList_ofList, String.toList_ofList]
    refine PathFormat.append_of_relative hstatic ?_
    rw [hconcat]
    exact PathFormat.needsSeparator_concat (by simp) hn

/-- The static directory goes on past its root. -/
theorem rootFixed_staticDir (fmt : PathFormat) (r : String) :
    fmt.RootFixed (staticDir fmt r).toList := by
  obtain ⟨above, hlength, habove⟩ := exists_staticDir fmt r
  rw [habove]
  exact PathFormat.rootFixed_of_separator fmt.isSeparator_preferredSeparator hlength (by decide)

/-- The static directory does not end in a separator. -/
theorem exists_concat_staticDir (fmt : PathFormat) (r : String) : ∃ before : List Char,
    2 ≤ before.length ∧ (staticDir fmt r).toList = before ++ ['c'] ∧
      fmt.isSeparator 'c' = false := by
  obtain ⟨above, hlength, habove⟩ := exists_staticDir fmt r
  refine ⟨above ++ fmt.preferredSeparator :: "stati".toList, ?_, ?_, ?_⟩
  · rw [List.length_append]
    omega
  · rw [habove, List.append_assoc]
    rfl
  · cases fmt <;> decide

/-- A relative name is put behind the static directory and a separator. -/
theorem resourcePath_of_relative (hname : (fmt.lexical name).Relative) :
    (resourcePath fmt r name).toList =
      (staticDir fmt r).toList ++ fmt.preferredSeparator :: name.toList := by
  obtain ⟨before, hlength, hbefore, hc⟩ := exists_concat_staticDir fmt r
  change (String.ofList (fmt.append (staticDir fmt r).toList name.toList)).toList = _
  rw [String.toList_ofList]
  refine PathFormat.append_of_relative hname ?_
  rw [hbefore]
  exact PathFormat.needsSeparator_concat hlength hc

/-- For a relative name, joining the strings joins the paths. -/
theorem lexical_resourcePath (hname : (fmt.lexical name).Relative) :
    fmt.lexical (resourcePath fmt r name) =
      (fmt.lexical (staticDir fmt r)).append (fmt.lexical name) := by
  have hcomponents : (fmt.lexical name).components = fmt.pathComponents name.toList := by
    change fmt.pathComponents (name.toList.drop _) = _
    rw [(PathFormat.relative_iff.mp hname).1, List.drop_zero]
  rw [LexicalPath.append, hcomponents, PathFormat.lexical, resourcePath_of_relative hname]
  exact PathFormat.lexicalChars_append (rootFixed_staticDir fmt r)
    fmt.isSeparator_preferredSeparator name.toList

/-- For a relative name, the parent of the path is one of the directories above it. -/
theorem initial_parentPath (hname : (fmt.lexical name).Relative) :
    (fmt.lexical (parentPath fmt (resourcePath fmt r name))).Initial
      (fmt.lexical (resourcePath fmt r name)) := by
  obtain ⟨before, _, hbefore, hc⟩ := exists_concat_staticDir fmt r
  rw [PathFormat.lexical, PathFormat.lexical, parentPath, String.toList_ofList,
    resourcePath_of_relative hname]
  refine PathFormat.initial_parent (rootFixed_staticDir fmt r) ?_
    fmt.isSeparator_preferredSeparator name.toList
  rw [hbefore]
  exact List.rdropWhile_concat_neg _ _ _ (by simp [hc])

end Static

variable {κ : Type} [DecidableEq κ] {env : UploadEnv κ} {os : FsOutcome} {data : Bytes}
  {s : UploadState κ} {req : UploadFields} {r : String}

/-- The body asks for no other directory. -/
theorem asksParent_run_uploadBody (env : UploadEnv κ) (os : FsOutcome) (root : Json)
    (s : UploadState κ) : env.AsksParent root s ((uploadBody env os root).run s).2 := by
  have hopened : ∀ req r, uploadFields root = .ok req → env.resourceRoot = some r →
      env.AsksParent root s (env.opened os req r s) := by
    intro req r hreq hroot
    by_cases hfound : os.dirExists = some true
    · exact UploadEnv.asksParent_of_eq (if_pos hfound)
    · exact UploadEnv.asksParent_of_concat hreq hroot (if_neg hfound)
  rcases uploadBody_cases env os root s with ⟨_, hrun⟩ | ⟨_, e, t, hrun, _, _, hasks⟩ |
    ⟨req, r, e, hreq, hroot, _, _, hrun⟩ | ⟨req, r, buffer, hreq, hroot, hdirs, hdec⟩
  · rw [hrun]
    exact UploadEnv.asksParent_of_eq rfl
  · rw [hrun]
    exact hasks
  · rw [hrun]
    exact hopened req r hreq hroot
  · rw [run_uploadBody_of_decode hreq hroot hdirs hdec]
    exact hopened req r hreq hroot

/-- A request asks for no directory but the parent of its path. -/
theorem createdDirs_doUploadFileReq (hreads : env.Reads data req)
    (hroot : env.resourceRoot = some r) {dir : String} (hdir : dir ∈ (doUploadFileReq env os data s).createdDirs) :
    dir ∈ s.createdDirs ∨ dir = parentPath env.paths (resourcePath env.paths r req.filename) := by
  obtain ⟨root, hparse, hreq⟩ := hreads
  have hasks := asksParent_run_uploadBody env os root s
  have hsame : (doUploadFileReq env os data s).createdDirs =
      ((uploadBody env os root).run s).2.createdDirs := by
    rw [doUploadFileReq, hparse]
    cases hrun : (uploadBody env os root).run s with
    | mk result t => cases result <;> simp [hrun, UploadState.send]
  rcases hasks dir (hsame ▸ hdir) with hbefore | ⟨req', r', hreq', hroot', rfl⟩
  · exact Or.inl hbefore
  · cases hreq.symm.trans hreq'
    cases hroot.symm.trans hroot'
    exact Or.inr rfl

/-- A request that finds the stream closed has it on its own path or closed, and touches
no file but that one. -/
theorem files_doUploadFileReq (hreads : env.Reads data req) (hroot : env.resourceRoot = some r)
    (hclosed : s.files.out = none) :
    (∀ st ∈ (doUploadFileReq env os data s).files.out, st.path = env.file r req.filename) ∧
      ∀ path ≠ env.file r req.filename,
        (doUploadFileReq env os data s).files.disk path = s.files.disk path := by
  have hend : s.files.AtEnd := by
    intro st hst
    rw [hclosed] at hst
    contradiction
  rcases doUploadFileReq_cases env os data s with
    ⟨hfiles, _⟩ | ⟨req', r', e, hreads', hroot', _, _, hfiles, _⟩ | ⟨req', r', buffer, hhandles⟩
  · rw [hfiles]
    exact ⟨by simp [hclosed], fun _ _ => rfl⟩
  · cases hreads.unique hreads'
    cases hroot.symm.trans hroot'
    rw [hfiles]
    cases hopens : os.opens with
    | false =>
      rw [openFile_of_refused]
      exact ⟨by simp [hclosed], fun _ _ => rfl⟩
    | true =>
      rw [openFile_of_none _ _ hclosed]
      exact ⟨by simp [View.openOn], fun path hne => View.disk_openOn_of_ne _ hne⟩
  · cases hreads.unique hhandles.reads
    cases hroot.symm.trans hhandles.root
    rw [hhandles.files_eq]
    cases hopens : os.opens with
    | false =>
      have hrefused := openFile_of_refused req.seq (env.file r req.filename) s.files
      rw [UploadFields.handle_of_none ((congrArg View.out hrefused).trans hclosed), hrefused]
      exact ⟨by simp [hclosed], fun _ _ => rfl⟩
    | true =>
      have hopened := openFile_of_none req.seq (env.file r req.filename) hclosed
      obtain ⟨hout, _, hothers⟩ :=
        UploadFields.handle_spec hend (congrArg View.out hopened) rfl buffer
      refine ⟨fun st hst => ?_, fun path hne => ?_⟩
      · rw [hst] at hout
        split at hout
        · contradiction
        · exact Option.some.inj hout
      · rw [hothers path hne, hopened]
        exact View.disk_openOn_of_ne _ hne

/-- An upload stays inside the static directory when its name is relative and stays inside
itself, in either format of path strings: its file lies under that directory, a request that
finds the stream closed touches no other, and every directory made for it is the static
directory, one above that, or lies under it. -/
theorem confined_of_inside (env : UploadEnv κ) (os : FsOutcome) (data : Bytes) (s : UploadState κ)
    (req : UploadFields) (r : String) (hreads : env.Reads data req)
    (hroot : env.resourceRoot = some r) (hname : (env.paths.lexical req.filename).Inside) :
    (env.paths.lexical (staticDir env.paths r)).Under
        (env.paths.lexical (resourcePath env.paths r req.filename)) ∧
      (s.files.out = none →
        (∀ st ∈ (doUploadFileReq env os data s).files.out, st.path = env.file r req.filename) ∧
        ∀ path ≠ env.file r req.filename,
          (doUploadFileReq env os data s).files.disk path = s.files.disk path) ∧
      ∀ dir ∈ (doUploadFileReq env os data s).createdDirs, dir ∈ s.createdDirs ∨
        ∀ d : LexicalPath (List Char), d.Initial (env.paths.lexical dir) →
          d.Initial (env.paths.lexical (staticDir env.paths r)) ∨
            (env.paths.lexical (staticDir env.paths r)).Under d := by
  have hpath := lexical_resourcePath (r := r) hname.1
  refine ⟨?_, files_doUploadFileReq hreads hroot, fun dir hdir => ?_⟩
  · rw [hpath]
    exact LexicalPath.under_append hname
  · refine (createdDirs_doUploadFileReq hreads hroot hdir).imp_right ?_
    rintro rfl d hd
    have hinitial := hd.trans (initial_parentPath (r := r) hname.1)
    rw [hpath] at hinitial
    exact LexicalPath.under_of_initial hname hinitial

/-- The names that leave the static directory: one that gives a root, one that climbs, and one that
is fine but comes before the directory is there; and the first two as Windows has them. -/
private def strayPackets : List (Bytes × Json) :=
  [([21], packetRoot "/etc/x" 1 false ""), ([22], packetRoot "../../../x" 1 false ""),
    ([23], packetRoot "x" 1 false ""), ([27], packetRoot "C:/x" 1 false ""),
    ([28], packetRoot "..\\..\\..\\x" 1 false "")]

/-- The same surroundings on Windows. -/
private def windowsEnv : UploadEnv String := { tableEnv strayPackets with paths := .windows }

/-- The file an absolute name opens, that of a name that climbs, and a directory made on the
way to the static directory do not lie under it. -/
theorem not_confined :
    ((doUploadFileReq (tableEnv strayPackets) ⟨some true, true, true⟩ [21]
        (UploadState.init fun _ => [])).files.out.map OutStream.path = some "/etc/x" ∧
      ¬ (PathFormat.posix.lexical (staticDir .posix "root")).Under
        (PathFormat.posix.lexical "/etc/x")) ∧
    ((doUploadFileReq (tableEnv strayPackets) ⟨some true, true, true⟩ [22]
        (UploadState.init fun _ => [])).files.out.map OutStream.path =
          some "root/bin/static/../../../x" ∧
      ¬ (PathFormat.posix.lexical (staticDir .posix "root")).Under
        (PathFormat.posix.lexical "root/bin/static/../../../x")) ∧
    ((doUploadFileReq (tableEnv strayPackets) ⟨some false, true, true⟩ [23]
        (UploadState.init fun _ => [])).createdDirs = ["root/bin/static"] ∧
      (PathFormat.posix.lexical "root").Initial (PathFormat.posix.lexical "root/bin/static") ∧
      ¬ (PathFormat.posix.lexical (staticDir .posix "root")).Under
        (PathFormat.posix.lexical "root")) ∧
    ((doUploadFileReq windowsEnv ⟨some true, true, true⟩ [27]
        (UploadState.init fun _ => [])).files.out.map OutStream.path = some "C:/x" ∧
      ¬ (PathFormat.windows.lexical (staticDir .windows "root")).Under
        (PathFormat.windows.lexical "C:/x")) ∧
    (doUploadFileReq windowsEnv ⟨some true, true, true⟩ [28]
        (UploadState.init fun _ => [])).files.out.map OutStream.path =
          some "root\\bin\\static\\..\\..\\..\\x" ∧
      ¬ (PathFormat.windows.lexical (staticDir .windows "root")).Under
        (PathFormat.windows.lexical "root\\bin\\static\\..\\..\\..\\x") := by
  refine ⟨⟨?_, ?_⟩, ⟨?_, ?_⟩, ⟨?_, ?_, ?_⟩, ⟨?_, ?_⟩, ?_, ?_⟩
  · decide +kernel
  · decide +kernel
  · decide +kernel
  · decide +kernel
  · decide +kernel
  · decide +kernel
  · decide +kernel
  · decide +kernel
  · decide +kernel
  · decide +kernel
  · decide +kernel

/-- A name that goes into a directory of its own and out of it again. -/
private def insidePacket : List (Bytes × Json) :=
  [([24], packetRoot "docs/../a.txt" 1 true "")]

theorem confined_of_inside_docs :
    (PathFormat.posix.lexical (staticDir .posix "root")).Under
      (PathFormat.posix.lexical (resourcePath .posix "root" "docs/../a.txt")) :=
  (confined_of_inside (tableEnv insidePacket) ⟨some false, true, true⟩ [24]
    (UploadState.init fun _ => []) _ "root" (reads_packetRoot rfl) rfl (by decide +kernel)).1

end ResourceServer

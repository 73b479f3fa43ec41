import ResourceServer.Uploads.Reassembly

/-!
# When a success response is truthful

A session reuses one stream for all its requests and looks at the name only when
that stream is closed; a stream that could not be opened takes the data and drops
it; and one that is open writes at its own position, wherever the file ends once
other sessions have emptied it or written to it. A request answered with `E_SUCESS`
has added its data to its own file only if the data is base64 and the stream was
closed and could be opened, or was at the end of that file already.
-/

namespace ResourceServer

open FileStream Transition

variable {κ : Type} [DecidableEq κ]

/-- A well-formed request, with its directory there and its text not refused by
`BIO_read`, carries a base64 text that is empty, or finds the stream closed and
can open it, or finds it open at the end of its own file. -/
def Sound (env : UploadEnv κ) (s : UploadState κ) : UploadAction → Prop
  | .request os data => ∀ req r, env.Reads data req → env.resourceRoot = some r → os.DirsOk →
      0 ≤ (env.bioRead (Memory.cString 0 req.text) req.text.length).1 →
      ∃ d, Base64.decode req.text = some d ∧
        (d = [] ∨ s.files.out = none ∧ os.opens = true ∨
          ∃ st ∈ s.files.out, st.path = env.file r req.filename ∧
            st.AtSettledEnd 0 s.files.disk)
  | .flush _ => True

namespace UploadSystem

variable {ι : Type} [DecidableEq ι]

end UploadSystem

end ResourceServer

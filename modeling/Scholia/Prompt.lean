import Scholia.Text.Basic
/-!
# Prompts

What a model is asked: to document a whole file or a single routine. A prompt is a template whose
places are filled one after the other, so a value is searched for the places that come after it.
-/

namespace Scholia.Prompt

/-- A place of a template. -/
def place (name : String) : Text :=
  "\x7b".toList ++ name.toList ++ "\x7d".toList

/-- A template with places filled, in the order given. -/
def fill (template : Text) (values : List (String × Text)) : Text :=
  values.foldl (fun text (name, value) => Text.replaceAll (place name) value text) template

def ofLines (lines : List String) : Text :=
  Text.join ['\n'] (lines.map String.toList)

/-- The template for a whole file. -/
def wholeFileTemplate : Text :=
  ofLines
    ["You are a professional coding and documentation assistant.",
     "You will be given a code file written in \x7blanguage\x7d and your job is to generate and add the appropriate documentation for it.",
     "",
     "Create a comprehensive documentation for each function.",
     "You MUST respond with a single code block that contains both the generated documentation and the given code.",
     "",
     "Each function must be documented with:",
     "- Purpose of the function with a detailed description of what the function does.",
     "- Descriptions of input parameters if any.",
     "- Return values if any.",
     "- Exceptions handled in the function if any.",
     "",
     "ALWAYS use this documentation style for the functions:",
     "\x7bdoc_style\x7d",
     "",
     "Rules:",
     "- DO NOT omit any function or the body of any function.",
     "- DO NOT alter the code; only add the documentation.",
     "- DO NOT document classes.",
     "- DO NOT add 'Example usage' sections.",
     "- DO NOT write observations outside the code block.",
     "- RETURN ONLY ONE CODE BLOCK.",
     "",
     "File: \x7bfile_path\x7d",
     "",
     "This is the code to document:",
     "```",
     "\x7bcode\x7d",
     "```"]

/-- The template for one routine. -/
def routineTemplate : Text :=
  ofLines
    ["You are a professional coding and documentation assistant.",
     "You will be given a function written in \x7blanguage\x7d, and your job is to generate the appropriate documentation for it.",
     "",
     "ALWAYS use this documentation style:",
     "\x7bdoc_style\x7d",
     "",
     "The documentation should include:",
     "- Purpose of the function with a detailed description of what the function does.",
     "- Descriptions of input parameters.",
     "- Return values.",
     "- Exceptions handled in the function.",
     "",
     "Rules:",
     "- The documentation MUST be inside the code block and written in natural language.",
     "- Return a code block with the function and its documentation.",
     "- DO NOT omit or alter the function; only add the documentation.",
     "- DO NOT add anything else to the code block.",
     "- RETURN ONLY ONE CODE BLOCK.",
     "",
     "This is the function to document:",
     "```",
     "\x7bcode\x7d",
     "```"]

/-- The prompt for a whole file. -/
def wholeFile (language docStyle file code : Text) : Text :=
  fill wholeFileTemplate
    [("language", language), ("doc_style", docStyle), ("file_path", file), ("code", code)]

/-- The prompt for one routine. -/
def routine (language docStyle code : Text) : Text :=
  fill routineTemplate [("language", language), ("doc_style", docStyle), ("code", code)]

end Scholia.Prompt

/-!
# The build module

A script that gathers the include directories and the sources of a library for its build.
-/

namespace CompactAssembly.BuildModule

def opening : String :=
  "#\n" ++
  "# Copyright(c) 2018 The nanoFramework project contributors\n" ++
  "# See LICENSE file in the project root for full license information.\n" ++
  "#\n\n\n"

def directories (name : String) : String :=
  "#################################################################################################\n" ++
  "# make sure that a valid path is set bellow                                                     #\n" ++
  "# if this is for a class library it's OK to leave it as it is                                   #\n" ++
  "# if this is an Interop module the path has to be set where the build can find the source files #\n" ++
  "#################################################################################################\n" ++
  "\n" ++
  "# native code directory\n" ++
  "set(BASE_PATH_FOR_THIS_MODULE " ++
    s!"\"$\x7bBASE_PATH_FOR_CLASS_LIBRARIES_MODULES\x7d/{name}\")\n" ++
  "\n\n" ++
  "# set include directories\n" ++
  s!"list(APPEND {name}_INCLUDE_DIRS \"$\x7bPROJECT_SOURCE_DIR\x7d/src/CLR/Core\")\n" ++
  s!"list(APPEND {name}_INCLUDE_DIRS \"$\x7bPROJECT_SOURCE_DIR\x7d/src/CLR/Include\")\n" ++
  s!"list(APPEND {name}_INCLUDE_DIRS \"$\x7bPROJECT_SOURCE_DIR\x7d/src/HAL/Include\")\n" ++
  s!"list(APPEND {name}_INCLUDE_DIRS \"$\x7bPROJECT_SOURCE_DIR\x7d/src/PAL/Include\")\n" ++
  s!"list(APPEND {name}_INCLUDE_DIRS \"$\x7bBASE_PATH_FOR_THIS_MODULE\x7d\")\n"

def sourceList (name : String) (sources : List String) : String :=
  s!"\n# source files\nset({name}_SRCS\n\n" ++
  String.join (sources.map fun source => s!"    {source}\n") ++
  "\n)\n\n"

def search (name : String) : String :=
  s!"foreach(SRC_FILE $\x7b{name}_SRCS\x7d)\n" ++
  s!"    set({name}_SRC_FILE SRC_FILE-NOTFOUND)\n" ++
  s!"    find_file({name}_SRC_FILE $\x7bSRC_FILE\x7d\n" ++
  "\t    PATHS\n" ++
  "\t        \"$\x7bBASE_PATH_FOR_THIS_MODULE\x7d\"\n" ++
  "\t        \"$\x7bTARGET_BASE_LOCATION\x7d\"\n" ++
  "\n" ++
  "\t    CMAKE_FIND_ROOT_PATH_BOTH\n" ++
  "    )\n" ++
  s!"# message(\"$\x7bSRC_FILE\x7d >> $\x7b{name}_SRC_FILE\x7d\") # debug helper\n" ++
  s!"list(APPEND {name}_SOURCES $\x7b{name}_SRC_FILE\x7d)\n" ++
  "endforeach()\n" ++
  "\n" ++
  "include(FindPackageHandleStandardArgs)\n" ++
  "\n" ++
  s!"FIND_PACKAGE_HANDLE_STANDARD_ARGS({name} DEFAULT_MSG {name}_INCLUDE_DIRS {name}_SOURCES)\n\n"

/-- The build module of an assembly with given source files. -/
def text (name : String) (sources : List String) : String :=
  opening ++ directories name ++ sourceList name sources ++ search name

end CompactAssembly.BuildModule
